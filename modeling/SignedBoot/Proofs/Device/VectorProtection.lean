import Mathlib.Data.List.Basic
import Mathlib.Tactic.Common
import SignedBoot.Proofs.Device.RequestEffects

/-!
# What the host can do to the reset vector

The loader leaves the vector alone where it thinks of it: the chunk for address 0 is moved up. It
does not think of chunks that start inside the vector, at address 1, 2 or 3. These are programmed
where they aim, so a host can clear bits of the vector, though it can set none.
-/

namespace SignedBoot.Device

open Flash Layout Wire

variable {n : Nat}

/-- A frame spares the vector unless it is a chunk that is not denied, starts inside the vector, and
has a byte that clears a bit there. -/
def SparesVector (cells : Vector UInt8 n) (f : UInt8 × Bytes) : Prop :=
  ∀ addr chunk, Request.parse? f.1 f.2 = some (.data addr chunk) →
    0 < addr → addr + chunk.length < signatureField →
      ∀ i (hi : addr + i < n) (hc : i < chunk.length), addr + i < vectorLen →
        cells[addr + i] &&& chunk[i] = cells[addr + i]

/-- Only the cells of the vector matter to whether a frame spares it. -/
theorem SparesVector.congr {cells cells' : Vector UInt8 n} {f : UInt8 × Bytes}
    (h : SparesVector cells f) (hsame : ∀ i (hi : i < n), i < vectorLen → cells'[i] = cells[i]) :
    SparesVector cells' f := by
  intro addr chunk hparse hpos hlt i hi hc hv
  rw [hsame _ hi hv]
  exact h addr chunk hparse hpos hlt i hi hc hv

/-- Every run of a request that reaches into the vector is part of a chunk that starts there. -/
theorem exists_data_of_mem_requestWrites {r : Request} (h : ¬ Denied r) {w : Nat × Bytes}
    (hw : w ∈ requestWrites r) (hlow : w.1 < vectorLen) :
    ∃ addr chunk k, r = .data addr chunk ∧ 0 < addr ∧ addr + chunk.length < signatureField ∧
      w.1 = addr + k ∧ w.2 <+: chunk.drop k := by
  cases r with
  | size field =>
    have hstart : sizeField ≤ w.1 := (mem_segments hw).1
    exact absurd (Nat.lt_of_lt_of_le hlow (by decide)) (Nat.not_lt.2 hstart)
  | signature field =>
    have hstart : signatureField ≤ w.1 := (mem_segments hw).1
    exact absurd (Nat.lt_of_lt_of_le hlow (by decide)) (Nat.not_lt.2 hstart)
  | stop => cases hw
  | data addr chunk =>
    simp only [requestWrites, chunkWrites] at hw
    split at hw
    · rcases List.mem_append.1 hw with hw | hw
      · have hstart : 4 ≤ w.1 := (mem_segments hw).1
        exact absurd hstart (Nat.not_le.2 hlow)
      · have hstart : 8 ≤ w.1 := (mem_segments hw).1
        exact absurd (Nat.lt_of_lt_of_le hlow (by decide)) (Nat.not_lt.2 hstart)
    · next haddr =>
      obtain ⟨k, -, hk, hpiece⟩ := exists_of_mem_segments hw
      exact ⟨addr, chunk, k, rfl, Nat.pos_of_ne_zero haddr, Nat.not_le.1 h, hk, hpiece⟩

theorem getElem_afterFrame_of_spares {m : Nor n} {f : UInt8 × Bytes} (h : SparesVector m.cells f)
    {i : Nat} (hi : i < n) (hv : i < vectorLen) : (afterFrame m f).cells[i] = m.cells[i] := by
  rcases hparse : Request.parse? f.1 f.2 with _ | r
  · rw [afterFrame_of_none hparse]
  rw [afterFrame_of_some hparse]
  by_cases hdenied : Denied r
  · obtain ⟨why, hrun⟩ := run_execute_denied hdenied m
    rw [hrun]
  obtain ⟨done, hdone, heq⟩ := exists_prefix_of_execute r m
  rw [heq]
  refine applyAll_preserves (P := fun cells => cells[i] = m.cells[i])
    (fun change hm cells hcells => ?_) rfl
  obtain ⟨w, hw, rfl⟩ := List.mem_map.1 hm
  by_cases hmiss : i < w.1 ∨ w.1 + w.2.length ≤ i
  · exact (getElem_programCells_of_not_mem hi hmiss).trans hcells
  -- the run reaches the cell, so it belongs to a chunk that starts in the vector
  obtain ⟨addr, chunk, k, rfl, hpos, hlt, hk, hpiece⟩ :=
    exists_data_of_mem_requestWrites hdenied (hdone.subset hw) (by omega)
  obtain ⟨j, rfl⟩ : ∃ j, i = w.1 + j := ⟨i - w.1, by omega⟩
  have hj : j < w.2.length := by omega
  have hlen := hpiece.length_le
  rw [List.length_drop] at hlen
  have hbyte : w.2[j] = chunk[k + j] := by
    rw [hpiece.getElem hj, List.getElem_drop]
  have haddr : addr + (k + j) = w.1 + j := by omega
  have hspared := h addr chunk hparse hpos hlt (k + j) (by omega) (by omega) (by omega)
  simp only [haddr] at hspared
  rw [programChange, getElem_programCells_of_mem hi hj, hcells, hbyte, hspared]

/-- Without a power cut, a frame that leaves the vector alone spares it. -/
theorem spares_of_getElem_afterFrame (hn : signatureField ≤ n) {m : Nor n} (hpower : m.power = none)
    {f : UInt8 × Bytes}
    (h : ∀ i (hi : i < n), i < vectorLen → (afterFrame m f).cells[i] = m.cells[i]) :
    SparesVector m.cells f := by
  intro addr chunk hparse hpos hlt i hi hc hv
  have hdenied : ¬ Denied (.data addr chunk) := Nat.not_le.2 hlt
  have hwrites : requestWrites (.data addr chunk) = segments addr chunk :=
    if_neg (Nat.ne_of_gt hpos)
  have hbounds : ∀ w ∈ requestWrites (.data addr chunk), w.1 + w.2.length ≤ n := by
    intro w hw
    rw [hwrites] at hw
    have hend := (mem_segments hw).2
    omega
  have hcells : (afterFrame m f).cells = Nor.programCells m.cells addr chunk := by
    rw [afterFrame_of_some hparse, run_execute hdenied hbounds, hpower, hwrites]
    exact applyAll_segments addr chunk m.cells
  have hcell := h _ hi hv
  simp only [hcells] at hcell
  rw [← getElem_programCells_of_mem hi hc, hcell]

/-! ## Sequences of frames -/

/-- Frames that spare the vector leave it alone, whatever the power does. -/
theorem getElem_handleAll_of_spares {m : Nor n} {frames : List (UInt8 × Bytes)}
    (h : ∀ f ∈ frames, SparesVector m.cells f) {i : Nat} (hi : i < n) (hv : i < vectorLen) :
    (handleAll m frames).cells[i] = m.cells[i] := by
  induction frames generalizing m with
  | nil => rfl
  | cons f frames ih =>
    have hstep : ∀ i (hi : i < n), i < vectorLen → (afterFrame m f).cells[i] = m.cells[i] :=
      fun i hi hv => getElem_afterFrame_of_spares (h f List.mem_cons_self) hi hv
    have hrest := ih (m := afterFrame m f) fun g hg =>
      (h g (List.mem_cons_of_mem _ hg)).congr hstep
    exact hrest.trans (hstep i hi hv)

/-- Without a power cut, frames that leave the vector alone spare it one by one: a bit that one of
them had cleared would not have come back. -/
theorem spares_of_getElem_handleAll (hn : signatureField ≤ n) {m : Nor n} (hpower : m.power = none)
    {frames : List (UInt8 × Bytes)}
    (h : ∀ i (hi : i < n), i < vectorLen → (handleAll m frames).cells[i] = m.cells[i]) :
    ∀ f ∈ frames, SparesVector m.cells f := by
  induction frames generalizing m with
  | nil => exact fun f hf => by cases hf
  | cons f frames ih =>
    obtain ⟨hclears, hstays⟩ := clears_afterFrame m f
    have hrest := clears_handleAll (afterFrame m f) frames
    have hstep : ∀ i (hi : i < n), i < vectorLen → (afterFrame m f).cells[i] = m.cells[i] :=
      fun i hi hv => hclears.eq_of_eq hrest hi (h i hi hv)
    have htail := ih (hstays hpower) fun i hi hv => (h i hi hv).trans (hstep i hi hv).symm
    intro g hg
    rcases List.mem_cons.1 hg with rfl | hg
    · exact spares_of_getElem_afterFrame hn hpower hstep
    · exact (htail g hg).congr fun i hi hv => (hstep i hi hv).symm

/-- The vector survives a sequence of frames if every frame spares it, however large the memory and
whenever the power is cut. Without a power cut, in a memory that reaches up to the signature record,
it survives only then. -/
theorem vector_survives_frames_iff (m : Nor n) (frames : List (UInt8 × Bytes)) :
    ((∀ f ∈ frames, SparesVector m.cells f) →
      (handleAll m frames).slice 0 vectorLen = m.slice 0 vectorLen) ∧
    (m.power = none → signatureField ≤ n →
      (handleAll m frames).slice 0 vectorLen = m.slice 0 vectorLen →
        ∀ f ∈ frames, SparesVector m.cells f) := by
  have hslice : (handleAll m frames).slice 0 vectorLen = m.slice 0 vectorLen ↔
      ∀ i (hi : i < n), 0 ≤ i → i < 0 + vectorLen →
        (handleAll m frames).cells[i] = m.cells[i] := Nor.slice_eq_slice_iff
  constructor
  · intro h
    exact hslice.2 fun i hi _ hv => getElem_handleAll_of_spares h hi (by omega)
  · intro hpower hn h
    refine spares_of_getElem_handleAll hn hpower fun i hi hv => ?_
    exact hslice.1 h i hi (Nat.zero_le i) (by omega)

/-- A data byte for address 2 clears bits of a vector that has some set there. -/
theorem chunk_inside_vector_clears_it :
    ¬ ∀ (m : Nor flashSize) (frames : List (UInt8 × Bytes)),
      (handleAll m frames).slice 0 vectorLen = m.slice 0 vectorLen := by
  intro h
  let m := Nor.vectorOnly flashSize [0x00, 0xEF, 0x30, 0xF0]
  let f : UInt8 × Bytes := (0x44, [0x01, 0x00, 0x00, 0x02, 0x00])
  have hkept : ∀ i (hi : i < flashSize), i < vectorLen →
      (handleAll m [f]).cells[i] = m.cells[i] := fun i hi hv =>
    Nor.slice_eq_slice_iff.1 (h m [f]) i hi (Nat.zero_le i) (by omega)
  have hspared : SparesVector m.cells f :=
    spares_of_getElem_handleAll (by decide) rfl hkept f (List.mem_singleton_self f)
  have hparse : Request.parse? f.1 f.2 = some (.data 2 [0x00]) := by decide
  have hbyte := hspared 2 [0x00] hparse (by decide) (by decide) 0 (by decide) (by decide)
    (by decide)
  have hcell : m.cells[2] = 0x30 := Nor.getElem_vectorOnly (i := 2) (by decide) (by decide)
  simp only [Nat.add_zero, hcell] at hbyte
  exact absurd hbyte (by decide)

end SignedBoot.Device
