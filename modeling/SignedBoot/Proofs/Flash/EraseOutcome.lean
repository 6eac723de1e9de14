import Mathlib.Data.List.Basic
import Mathlib.Tactic.Common
import SignedBoot.Proofs.Flash.EraseSequence

/-!
# What an erase sequence leaves behind

Below a limit there are some number of whole blocks, and there may be none or only one: then the copy
of the vector, at the start of block 1, lies outside of what is to be erased and stays there. So three
things are said of a complete sequence by how many blocks it is over. Of one that was cut off only
this much is left in every case: the vector is in one of its two places, and whatever lies above the
blocks and above the copy was never touched.
-/

namespace SignedBoot.Flash

open Layout

variable {n : Nat}

/-! ## The number of commands -/

/-- How many commands it takes to erase a number of blocks: two for the copy of the vector, one for
every block, and one that puts the vector back into block 0 if that block was erased. -/
def eraseCost (blocks : Nat) : Nat :=
  2 + blocks + if 0 < blocks then 1 else 0

theorem length_eraseChanges_eq_cost (vector : Bytes) (blocks : Nat) :
    (eraseChanges vector blocks : List (Change n)).length = eraseCost blocks := by
  by_cases h : 0 < blocks
  · rw [length_eraseChanges vector h, eraseCost, if_pos h]
    omega
  · obtain rfl : blocks = 0 := Nat.eq_zero_of_not_pos h
    rfl

/-- An erase sequence is carried out as far as the power lasts. -/
theorem run_eraseBelow_eq {limit : Nat} (hblocks : 2 * blockSize ≤ n) (hn : limit ≤ n)
    (hspace : limit < addressSpace) (m : Nor n) :
    (eraseBelow limit).run m =
      (if m.power.Covers (eraseCost (limit / blockSize)) then .ok () else .error .powerLoss,
        m.after (m.power.take (eraseChanges (m.slice 0 vectorLen) (limit / blockSize)))) := by
  rw [run_eraseBelow hblocks hn hspace, run_commands, length_eraseChanges_eq_cost]

/-! ## Complete sequences -/

/-- What a memory holds after a complete erase sequence over a number of blocks. -/
structure Erased (before : Nor n) (blocks : Nat) (after : Nor n) : Prop where
  /-- The vector is where it was. -/
  vector : after.slice 0 vectorLen = before.slice 0 vectorLen
  /-- Everything else in the blocks is erased. -/
  below : ∀ i (hi : i < n), vectorLen ≤ i → i < blocks * blockSize → after.cells[i] = erased
  /-- The copy of the vector is still there unless block 1 was among the blocks. -/
  copy : blocks < 2 → after.slice vectorBackup blockSize =
    before.slice 0 vectorLen ++ List.replicate (blockSize - vectorLen) erased
  /-- Block 0 is as it was unless it was among the blocks. -/
  first : blocks = 0 → after.slice 0 blockSize = before.slice 0 blockSize
  /-- What lies above the blocks and above the copy is as it was. -/
  above : ∀ i (hi : i < n), max (2 * blockSize) (blocks * blockSize) ≤ i →
    after.cells[i] = before.cells[i]

/-- The byte of a vector that belongs to a cell at the start of a block. -/
theorem getElem?_slice_vector (m : Nor n) {i : Nat} (hi : i < vectorLen) :
    (m.slice 0 vectorLen)[i]? = m.cells[i]? := by
  rw [m.getElem?_slice, if_pos hi, Nat.zero_add]

theorem erased_after_eraseChanges (m : Nor n) (hn : 2 * blockSize ≤ n) {blocks : Nat} :
    Erased m blocks (m.after (eraseChanges (m.slice 0 vectorLen) blocks)) := by
  have hn128 : 128 ≤ n := hn
  have hlen : (m.slice 0 vectorLen).length = vectorLen := m.length_slice (by show 0 + 4 ≤ n; omega)
  have hlen4 : (m.slice 0 vectorLen).length = 4 := hlen
  have hcell : ∀ i (hi : i < n),
      (m.after (eraseChanges (m.slice 0 vectorLen) blocks)).cells[i] =
        if 1 ≤ i / 64 ∧ i / 64 < blocks then erased
        else if i / 64 < blocks ∨ i / 64 = 1 then (m.slice 0 vectorLen)[i % 64]?.getD erased
        else m.cells[i] :=
    fun i hi => getElem_applyAll_eraseChanges_cases hlen blocks m.cells hi
  refine ⟨?_, ?_, ?_, ?_, ?_⟩
  · rw [Nor.slice_eq_slice_iff]
    intro i hi _ (hv : i < 0 + 4)
    have hmod : i % 64 = i := by omega
    rw [hcell i hi, if_neg (by omega), hmod, getElem?_slice_vector m (by omega),
      Vector.getElem?_eq_getElem hi]
    split <;> rfl
  · intro i hi (hge : 4 ≤ i) (hlt : i < blocks * 64)
    rw [hcell i hi]
    by_cases hfirst : i / 64 = 0
    · rw [if_neg (by omega), if_pos (by omega), List.getElem?_eq_none (by omega)]
      rfl
    · rw [if_pos (by omega)]
  · intro hblocks
    refine List.ext_getElem? fun i => ?_
    rw [Nor.getElem?_slice]
    by_cases hi : i < 64
    · have hmod : (64 + i) % 64 = i := by omega
      rw [if_pos hi, Vector.getElem?_eq_getElem (by show 64 + i < n; omega), hcell,
        if_neg (by show ¬ (1 ≤ (64 + i) / 64 ∧ (64 + i) / 64 < blocks); omega),
        if_pos (by show _ ∨ (64 + i) / 64 = 1; omega)]
      simp only [hmod]
      by_cases hv : i < 4
      · rw [List.getElem?_append_left (by omega), List.getElem?_eq_getElem (by omega)]
        rfl
      · rw [List.getElem?_append_right (by omega), List.getElem?_eq_none (by omega),
          List.getElem?_replicate_of_lt (by show i - _ < 64 - 4; omega)]
        rfl
    · rw [if_neg hi, List.getElem?_eq_none]
      rw [List.length_append, List.length_replicate]
      show _ + (64 - 4) ≤ i
      omega
  · rintro rfl
    rw [Nor.slice_eq_slice_iff]
    intro i hi _ (hlt : i < 0 + 64)
    rw [hcell i hi, if_neg (by omega), if_neg (by omega)]
  · intro i hi hge
    have hge' : max (2 * 64) (blocks * 64) ≤ i := hge
    rw [hcell i hi, if_neg (by omega), if_neg (by omega)]

/-! ## Sequences that were cut off -/

/-- Without a block to erase, a sequence only makes the copy. -/
theorem getElem_eraseChanges_zero {vector : Bytes} {change : Change n}
    (hm : change ∈ eraseChanges vector 0) (cells : Vector UInt8 n) {i : Nat} (hi : i < n)
    (hlt : i < 64) : (change cells)[i] = cells[i] := by
  rcases List.mem_cons.1 hm with rfl | hm
  · rw [getElem_eraseChange 1 cells hi, if_neg (by omega)]
  · rw [List.mem_singleton.1 hm]
    exact getElem_programCells_of_not_mem hi (Or.inl hlt)

/-- However far a sequence gets, the vector is in one of its two places. -/
theorem storedAt_take_or {vector : Bytes} (hlen : vector.length = vectorLen) (blocks : Nat)
    {cells : Vector UInt8 n} (hstored : StoredAt vector 0 cells) (k : Nat) :
    StoredAt vector 0 (applyAll ((eraseChanges vector blocks).take k) cells) ∨
      StoredAt vector vectorBackup (applyAll ((eraseChanges vector blocks).take k) cells) := by
  by_cases hblocks : 0 < blocks
  · by_cases hk : k = 3
    · subst hk
      exact Or.inr (storedAt_take_three hlen hblocks cells).1
    · exact Or.inl (storedAt_take_eraseChanges hlen hblocks hstored hk)
  · obtain rfl : blocks = 0 := Nat.eq_zero_of_not_pos hblocks
    have hlen4 : vector.length = 4 := hlen
    refine Or.inl (hstored.of_unchanged fun i hi _ hlt => ?_)
    exact getElem_applyAll hi (fun change hm cells =>
      getElem_eraseChanges_zero (List.mem_of_mem_take hm) cells hi (by omega)) cells

/-- What a memory holds after an erase sequence over a number of blocks that was cut off. -/
structure CutOff (before : Nor n) (blocks : Nat) (after : Nor n) : Prop where
  /-- The vector is where it was, or in the copy. -/
  vector : after.slice 0 vectorLen = before.slice 0 vectorLen ∨
    after.slice vectorBackup vectorLen = before.slice 0 vectorLen
  /-- What lies above the blocks and above the copy is as it was. -/
  above : ∀ i (hi : i < n), max (2 * blockSize) (blocks * blockSize) ≤ i →
    after.cells[i] = before.cells[i]

theorem cutOff_after_take (m : Nor n) (hn : 2 * blockSize ≤ n) (blocks k : Nat) :
    CutOff m blocks (m.after ((eraseChanges (m.slice 0 vectorLen) blocks).take k)) := by
  have hn128 : 128 ≤ n := hn
  have hlen : (m.slice 0 vectorLen).length = vectorLen := m.length_slice (by show 0 + 4 ≤ n; omega)
  have hfits : ∀ addr, addr + vectorLen ≤ n → addr + (m.slice 0 vectorLen).length ≤ n := by
    intro addr h
    rw [hlen]
    exact h
  have hstored : StoredAt (m.slice 0 vectorLen) 0 m.cells := by
    rw [storedAt_iff_slice (hfits 0 (by show 0 + 4 ≤ n; omega)), hlen]
  refine ⟨?_, ?_⟩
  · rcases storedAt_take_or hlen blocks hstored k with hfirst | hcopy
    · refine Or.inl ?_
      have hslice := (storedAt_iff_slice (m := m.after _) (hfits 0 (by show 0 + 4 ≤ n; omega))).1 hfirst
      rwa [hlen] at hslice
    · refine Or.inr ?_
      have hslice := (storedAt_iff_slice (m := m.after _)
        (hfits vectorBackup (by show 64 + 4 ≤ n; omega))).1 hcopy
      rwa [hlen] at hslice
  · intro i hi hge
    have hge' : max (2 * 64) (blocks * 64) ≤ i := hge
    exact getElem_applyAll hi (fun change hm cells => getElem_eraseChanges_of_le hlen
      (List.mem_of_mem_take hm) cells hi (by omega) (by omega)) m.cells

/-! ## The whole sequence -/

/-- With enough power an erase sequence completes and takes exactly the commands it costs. With less
it fails when the power is gone, and every command paid for has been carried out. -/
theorem eraseBelow_complete_or_cut (m : Nor n) (hn : 2 * blockSize ≤ n) (limit : UInt32)
    (hlimit : limit.toNat ≤ n) :
    (m.power.Covers (eraseCost (limit.toNat / blockSize)) →
      ∃ m', (eraseBelow limit.toNat).run m = (.ok (), m') ∧
        m'.operations = m.operations + eraseCost (limit.toNat / blockSize) ∧
        Erased m (limit.toNat / blockSize) m') ∧
    (∀ k, m.power = some k → k < eraseCost (limit.toNat / blockSize) →
      ∃ m', (eraseBelow limit.toNat).run m = (.error .powerLoss, m') ∧
        m'.operations = m.operations + k ∧ CutOff m (limit.toNat / blockSize) m') := by
  have hspace : limit.toNat < addressSpace := limit.toNat_lt
  have hcost := length_eraseChanges_eq_cost (n := n) (m.slice 0 vectorLen) (limit.toNat / blockSize)
  have hrun := run_eraseBelow_eq hn hlimit hspace m
  constructor
  · intro hpower
    have hall : m.power.take (eraseChanges (m.slice 0 vectorLen) (limit.toNat / blockSize)) =
        (eraseChanges (m.slice 0 vectorLen) (limit.toNat / blockSize) : List (Change n)) :=
      Quota.take_of_covers (by rw [hcost]; exact hpower)
    rw [if_pos hpower, hall] at hrun
    refine ⟨_, hrun, ?_, erased_after_eraseChanges m hn⟩
    rw [← hcost]
    rfl
  · intro k hk hlt
    have hshort : ¬ m.power.Covers (eraseCost (limit.toNat / blockSize)) := by
      rw [hk, Quota.covers_some]
      omega
    rw [if_neg hshort, hk] at hrun
    refine ⟨_, hrun, ?_, cutOff_after_take m hn _ k⟩
    have hlength : ((eraseChanges (m.slice 0 vectorLen) (limit.toNat / blockSize) :
        List (Change n)).take k).length = k := by
      rw [List.length_take, hcost]
      omega
    exact congrArg (m.operations + ·) hlength

/-- A limit inside block 1 of a memory of three blocks: four commands, and a cut behind the third one
leaves the vector to its copy. -/
theorem erase_one_block_complete_or_cut :
    (2 * blockSize ≤ 192 ∧ (100 : UInt32).toNat ≤ 192) ∧
    (∃ m', (eraseBelow 100).run (Nor.vectorOnly 192 [0x00, 0xEF, 0x30, 0xF0]) = (.ok (), m') ∧
      m'.operations = 4 ∧ Erased (Nor.vectorOnly 192 [0x00, 0xEF, 0x30, 0xF0]) 1 m') ∧
    (∃ m', (eraseBelow 100).run ((Nor.vectorOnly 192 [0x00, 0xEF, 0x30, 0xF0]).cutAfter 3) =
      (.error .powerLoss, m') ∧ m'.operations = 3 ∧
      CutOff ((Nor.vectorOnly 192 [0x00, 0xEF, 0x30, 0xF0]).cutAfter 3) 1 m') := by
  have hfits : 2 * blockSize ≤ 192 ∧ (100 : UInt32).toNat ≤ 192 := by decide
  refine ⟨hfits, ?_, ?_⟩
  · exact (eraseBelow_complete_or_cut (Nor.vectorOnly 192 [0x00, 0xEF, 0x30, 0xF0]) hfits.1 100
      hfits.2).1 (Quota.covers_none _)
  · exact (eraseBelow_complete_or_cut ((Nor.vectorOnly 192 [0x00, 0xEF, 0x30, 0xF0]).cutAfter 3)
      hfits.1 100 hfits.2).2 3 rfl (by decide)

end SignedBoot.Flash
