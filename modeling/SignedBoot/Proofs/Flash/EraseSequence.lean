import Mathlib.Data.List.Basic
import Mathlib.Tactic.Common
import SignedBoot.Proofs.Flash.Programming

/-!
# The erase sequence, cut anywhere

Erasing below a limit is a list of commands that depends on the memory only through the reset vector
it starts with. The first four commands juggle the vector: erase block 1, copy the vector there,
erase block 0, write the vector back. Every later one erases a single block above.

So a power cut loses the vector from address 0 in exactly one place, after the third command, and
there the copy holds it. The copy is worthless to the next erase, though: that one reads the vector
from address 0 again and begins by erasing block 1.
-/

namespace SignedBoot.Flash

open Layout

variable {n : Nat}

/-! ## Blank vectors -/

/-- What an erased reset vector reads as. -/
abbrev blankVector : Bytes := List.replicate vectorLen erased

theorem storedAt_blankVector {addr : Nat} {cells : Vector UInt8 n}
    (h : ∀ i (hi : i < n), addr ≤ i → i < addr + vectorLen → cells[i] = erased) :
    StoredAt blankVector addr cells := by
  intro i hi hn
  rw [List.length_replicate] at hi
  rw [List.getElem_replicate]
  exact h _ hn (by omega) (by omega)

/-! ## The commands -/

/-- The change that erases a block. -/
def eraseChange (index : Nat) : Change n :=
  fun cells => Nor.eraseCells cells (index * blockSize) blockSize

theorem getElem_eraseChange (index : Nat) (cells : Vector UInt8 n) {i : Nat} (hi : i < n) :
    (eraseChange index cells)[i] = if i / 64 = index then erased else cells[i] := by
  have hblock : index * 64 ≤ i ∧ i < index * 64 + 64 ↔ i / 64 = index := by omega
  rw [eraseChange, Nor.getElem_eraseCells]
  simp only [hblock]

theorem eraseBlock_eq_command {index : Nat} (hn : (index + 1) * blockSize ≤ n)
    (hspace : (index + 1) * blockSize < addressSpace) :
    (eraseBlock index : Action n Unit) = command (eraseChange index) := by
  have haligned : IsAligned (index * blockSize) ((index + 1) * blockSize) := by
    refine ⟨?_, Nat.mul_mod_left _ _, Nat.mul_mod_left _ _⟩
    simp only [blockSize]
    omega
  have hlen : (index + 1) * blockSize - index * blockSize = blockSize := by
    simp only [blockSize]
    omega
  rw [eraseBlock, if_neg (Nat.not_le.2 hspace), erase, if_neg (not_not_intro haligned),
    if_neg (Nat.not_lt.2 hn), hlen]
  rfl

/-- The changes that erase `count` blocks from the given index on. -/
def blockChanges (vector : Bytes) (index : Nat) : (count : Nat) → List (Change n)
  | 0 => []
  | count + 1 =>
    (eraseChange index :: if index = 0 then [programChange (0, vector)] else []) ++
      blockChanges vector (index + 1) count

/-- The changes of a whole erase sequence over the given number of blocks. -/
def eraseChanges (vector : Bytes) (blocks : Nat) : List (Change n) :=
  eraseChange 1 :: programChange (vectorBackup, vector) :: blockChanges vector 0 blocks

/-- A vector in bounds is programmed by one command, at the start of block 0 or of block 1. -/
theorem program_vector_eq_command {vector : Bytes} (hlen : vector.length = vectorLen) {addr : Nat}
    (haddr : addr = 0 ∨ addr = vectorBackup) (hn : 2 * blockSize ≤ n) :
    (program addr vector : Action n Unit) = command (programChange (addr, vector)) := by
  have hne : vector ≠ [] := by
    rintro rfl
    cases hlen
  have hfits : addr % blockSize + vector.length ≤ blockSize := by
    rcases haddr with rfl | rfl <;> rw [hlen] <;> decide
  have hend : addr + vector.length ≤ 2 * blockSize := by
    rcases haddr with rfl | rfl <;> rw [hlen] <;> decide
  have hspace : 2 * blockSize < addressSpace := by decide
  rw [program, segments_of_fits hne hfits]
  have hone : ([(addr, vector)].forM commit : Action n Unit) =
      commands (programChanges [(addr, vector)]) := by
    refine forM_commit_eq_commands fun w hw => ?_
    rw [List.mem_singleton.1 hw]
    exact ⟨Nat.le_trans hend hn, Nat.lt_of_le_of_lt hend hspace⟩
  rw [hone]
  refine Attempt.eq_of_run fun m => ?_
  simp only [programChanges, List.map_cons, List.map_nil, commands_cons, commands_nil]
  rw [Attempt.run_bind]
  rcases (command (programChange (addr, vector))).run m with ⟨e | ⟨⟩, m'⟩ <;> rfl

theorem eraseBlocks_eq_commands {vector : Bytes} (hlen : vector.length = vectorLen)
    (hblocks : 2 * blockSize ≤ n) {index count : Nat} (hn : (index + count) * blockSize ≤ n)
    (hspace : (index + count) * blockSize < addressSpace) :
    (eraseBlocks vector index count : Action n Unit) =
      commands (blockChanges vector index count) := by
  induction count generalizing index with
  | zero => rfl
  | succ count ih =>
    have hnext : index + 1 + count = index + (count + 1) := by omega
    have hle : (index + 1) * blockSize ≤ (index + (count + 1)) * blockSize :=
      Nat.mul_le_mul_right _ (by omega)
    have hrest := @ih (index + 1) (hnext ▸ hn) (hnext ▸ hspace)
    have hblock := eraseBlock_eq_command (Nat.le_trans hle hn) (Nat.lt_of_le_of_lt hle hspace)
    rw [eraseBlocks, eraseAndKeep, blockChanges, commands_append, commands_cons, hrest, hblock]
    by_cases h0 : index = 0
    · subst h0
      rw [if_pos rfl, if_pos rfl, program_vector_eq_command hlen (Or.inl rfl) hblocks]
      simp only [commands_cons, commands_nil, bind_assoc, pure_bind]
    · simp only [if_neg h0, commands_nil, bind_assoc, pure_bind]

/-- The whole erase sequence is a list of commands that depends on the memory only through its reset
vector. -/
theorem run_eraseBelow {limit : Nat} (hblocks : 2 * blockSize ≤ n) (hn : limit ≤ n)
    (hspace : limit < addressSpace) (m : Nor n) :
    (eraseBelow limit).run m =
      (commands (eraseChanges (m.slice 0 vectorLen) (limit / blockSize))).run m := by
  have hvector : 0 + vectorLen ≤ n := Nat.le_trans (by decide) hblocks
  have hwhole : (0 + limit / blockSize) * blockSize ≤ limit := by
    rw [Nat.zero_add]
    exact Nat.div_mul_le_self limit blockSize
  have hread : (read 0 vectorLen : Action n Bytes).run m = (.ok (m.slice 0 vectorLen), m) :=
    congrArg (·, m) (m.read_eq_ok hvector)
  have hlen := m.length_slice hvector
  have hbackup : (eraseBlock (vectorBackup / blockSize) : Action n Unit) =
      command (eraseChange (vectorBackup / blockSize)) :=
    eraseBlock_eq_command hblocks (by decide)
  have hrest := eraseBlocks_eq_commands hlen hblocks (Nat.le_trans hwhole hn)
    (Nat.lt_of_le_of_lt hwhole hspace)
  rw [eraseBelow, Attempt.run_bind_ok hread, hbackup,
    program_vector_eq_command hlen (Or.inr rfl) hblocks, hrest]
  rfl

/-! ## What the sequence leaves behind -/

theorem getElem_blockChanges_of_lt {vector : Bytes} {index count : Nat} (h : 0 < index)
    {change : Change n} (hm : change ∈ blockChanges vector index count) (cells : Vector UInt8 n)
    {i : Nat} (hi : i < n) (hb : i < 64) : (change cells)[i] = cells[i] := by
  induction count generalizing index with
  | zero => cases hm
  | succ count ih =>
    rw [blockChanges, if_neg (by omega)] at hm
    rcases List.mem_cons.1 hm with rfl | hm
    · have hzero : i / 64 = 0 := Nat.div_eq_of_lt hb
      rw [getElem_eraseChange index cells hi, if_neg (by omega)]
    · exact ih (by omega) hm

theorem getElem_applyAll_blockChanges {vector : Bytes} {index count : Nat} (h : 0 < index)
    (cells : Vector UInt8 n) {i : Nat} (hi : i < n) :
    (applyAll (blockChanges vector index count) cells)[i] =
      if index ≤ i / 64 ∧ i / 64 < index + count then erased else cells[i] := by
  induction count generalizing index cells with
  | zero => rw [blockChanges, applyAll_nil, if_neg (by omega)]
  | succ count ih =>
    rw [blockChanges, if_neg (by omega), List.cons_append, List.nil_append, applyAll_cons,
      ih (by omega), getElem_eraseChange index cells hi]
    by_cases hthis : i / 64 = index
    · rw [if_neg (by omega), if_pos hthis, if_pos (by omega)]
    · rw [if_neg hthis]
      congr 1
      simp only [eq_iff_iff]
      omega

/-- The changes that juggle the vector come first, those that erase the blocks above follow. -/
theorem eraseChanges_eq (vector : Bytes) {blocks : Nat} (h : 0 < blocks) :
    (eraseChanges vector blocks : List (Change n)) =
      eraseChange 1 :: programChange (vectorBackup, vector) :: eraseChange 0 ::
        programChange (0, vector) :: blockChanges vector 1 (blocks - 1) := by
  obtain ⟨count, rfl⟩ : ∃ count, blocks = count + 1 := ⟨blocks - 1, by omega⟩
  rfl

theorem length_blockChanges (vector : Bytes) {index : Nat} (h : 0 < index) (count : Nat) :
    (blockChanges vector index count : List (Change n)).length = count := by
  induction count generalizing index with
  | zero => rfl
  | succ count ih =>
    rw [blockChanges, if_neg (by omega), List.cons_append, List.nil_append, List.length_cons,
      ih (by omega)]

/-- Three commands keep the vector alive, and every block takes one. -/
theorem length_eraseChanges (vector : Bytes) {blocks : Nat} (h : 0 < blocks) :
    (eraseChanges vector blocks : List (Change n)).length = blocks + 3 := by
  rw [eraseChanges_eq vector h]
  simp only [List.length_cons, length_blockChanges vector Nat.one_pos]
  omega

/-- A block that is erased and then gets the vector at its start. -/
theorem getElem_programChange_eraseChange {vector : Bytes} (hlen : vector.length = vectorLen)
    (index : Nat) (cells : Vector UInt8 n) {i : Nat} (hi : i < n) :
    (programChange (index * blockSize, vector) (eraseChange index cells))[i] =
      if i / 64 = index then vector[i % 64]?.getD erased else cells[i] := by
  have hlen4 : vector.length = 4 := hlen
  have hcell := getElem_eraseChange index cells hi
  by_cases hv : i / 64 = index ∧ i % 64 < vector.length
  · obtain ⟨k, rfl⟩ : ∃ k, i = index * 64 + k := ⟨i - index * 64, by omega⟩
    have hk : (index * 64 + k) % 64 = k := by omega
    rw [hk] at hv ⊢
    rw [if_pos hv.1] at hcell
    rw [if_pos hv.1, programChange, getElem_programCells_of_mem hi hv.2, hcell, erased_and,
      List.getElem?_eq_getElem hv.2]
    rfl
  · have hmiss : i < index * 64 ∨ index * 64 + vector.length ≤ i := by omega
    rw [programChange, getElem_programCells_of_not_mem hi hmiss, hcell]
    by_cases hthis : i / 64 = index
    · rw [if_pos hthis, if_pos hthis, List.getElem?_eq_none (by omega)]
      rfl
    · rw [if_neg hthis, if_neg hthis]

/-- The cells after a whole sequence: the vector stands at the start of block 0, if that one is to be
erased, and of block 1, unless that one is erased again; every other cell of the erased blocks is
erased. -/
theorem getElem_applyAll_eraseChanges_cases {vector : Bytes} (hlen : vector.length = vectorLen)
    (blocks : Nat) (cells : Vector UInt8 n) {i : Nat} (hi : i < n) :
    (applyAll (eraseChanges vector blocks) cells)[i] =
      if 1 ≤ i / 64 ∧ i / 64 < blocks then erased
      else if i / 64 < blocks ∨ i / 64 = 1 then vector[i % 64]?.getD erased
      else cells[i] := by
  have hcopied : (programChange (vectorBackup, vector) (eraseChange 1 cells))[i] =
      if i / 64 = 1 then vector[i % 64]?.getD erased else cells[i] :=
    getElem_programChange_eraseChange hlen 1 cells hi
  by_cases hblocks : 0 < blocks
  · have hback : (programChange (0, vector) (eraseChange 0
        (programChange (vectorBackup, vector) (eraseChange 1 cells))))[i] =
        if i / 64 = 0 then vector[i % 64]?.getD erased
        else (programChange (vectorBackup, vector) (eraseChange 1 cells))[i] :=
      getElem_programChange_eraseChange hlen 0 _ hi
    rw [eraseChanges_eq vector hblocks]
    simp only [applyAll_cons]
    rw [getElem_applyAll_blockChanges Nat.one_pos _ hi, hback, hcopied]
    grind
  · obtain rfl : blocks = 0 := Nat.eq_zero_of_not_pos hblocks
    rw [if_neg (by omega)]
    simp only [Nat.not_lt_zero, false_or]
    exact hcopied

/-- The cells after a whole sequence over at least two blocks: the vector is back at address 0, and
everything else below the limit is erased. -/
theorem getElem_applyAll_eraseChanges {vector : Bytes} (hlen : vector.length = vectorLen)
    {blocks : Nat} (hblocks : 2 ≤ blocks) (cells : Vector UInt8 n) {i : Nat} (hi : i < n) :
    (applyAll (eraseChanges vector blocks) cells)[i] =
      if h : i < vector.length then vector[i]
      else if i / 64 < blocks then erased else cells[i] := by
  have hlen4 : vector.length = 4 := hlen
  rw [getElem_applyAll_eraseChanges_cases hlen blocks cells hi]
  by_cases hfirst : i / 64 = 0
  · have hmod : i % 64 = i := by omega
    rw [if_neg (by omega), if_pos (Or.inl (by omega)), hmod]
    by_cases hv : i < vector.length
    · rw [dif_pos hv, List.getElem?_eq_getElem hv]
      rfl
    · rw [dif_neg hv, if_pos (by omega), List.getElem?_eq_none (by omega)]
      rfl
  · rw [dif_neg (by omega)]
    by_cases hbelow : i / 64 < blocks
    · rw [if_pos (by omega), if_pos hbelow]
    · rw [if_neg (by omega), if_neg (by omega), if_neg hbelow]

theorem getElem_blockChanges_of_le {vector : Bytes} (hlen : vector.length = vectorLen)
    {index count : Nat} {change : Change n} (hm : change ∈ blockChanges vector index count)
    (cells : Vector UInt8 n) {i : Nat} (hi : i < n) (hb : index + count ≤ i / 64) :
    (change cells)[i] = cells[i] := by
  have hlen4 : vector.length = 4 := hlen
  induction count generalizing index with
  | zero => cases hm
  | succ count ih =>
    rcases List.mem_append.1 hm with hm | hm
    · rcases List.mem_cons.1 hm with rfl | hm
      · rw [getElem_eraseChange index cells hi, if_neg (by omega)]
      · split at hm
        · rw [List.mem_singleton.1 hm]
          exact getElem_programCells_of_not_mem hi (Or.inr (by simp only; omega))
        · cases hm
    · exact ih hm (by omega)

/-- No command of a sequence touches a cell above its blocks and above the copy of the vector. -/
theorem getElem_eraseChanges_of_le {vector : Bytes} (hlen : vector.length = vectorLen)
    {blocks : Nat} {change : Change n} (hm : change ∈ eraseChanges vector blocks)
    (cells : Vector UInt8 n) {i : Nat} (hi : i < n) (hcopy : 2 ≤ i / 64) (hb : blocks ≤ i / 64) :
    (change cells)[i] = cells[i] := by
  have hlen4 : vector.length = 4 := hlen
  rcases List.mem_cons.1 hm with rfl | hm
  · rw [getElem_eraseChange 1 cells hi, if_neg (by omega)]
  · rcases List.mem_cons.1 hm with rfl | hm
    · have hbehind : 64 + vector.length ≤ i := by omega
      exact getElem_programCells_of_not_mem hi (Or.inr hbehind)
    · exact getElem_blockChanges_of_le hlen hm cells hi (by omega)

/-- However far a sequence gets, it leaves the cells above its blocks and above the copy of the vector
alone. -/
theorem getElem_run_eraseBelow_above {limit : Nat} (hblocks : 2 * blockSize ≤ n) (hn : limit ≤ n)
    (hspace : limit < addressSpace) (m : Nor n) {i : Nat} (hi : i < n) (hcopy : 2 * blockSize ≤ i)
    (hb : limit / blockSize * blockSize ≤ i) :
    ((eraseBelow limit).run m).2.cells[i] = m.cells[i] := by
  have hcopy128 : 2 * 64 ≤ i := hcopy
  have hlen : (m.slice 0 vectorLen).length = vectorLen := by
    apply m.length_slice
    show 0 + 4 ≤ n
    omega
  rw [run_eraseBelow hblocks hn hspace, run_commands]
  refine getElem_applyAll hi (fun change hm cells => ?_) m.cells
  have hmem := (m.power.take_prefix _).subset hm
  exact getElem_eraseChanges_of_le hlen hmem cells hi (by omega)
    ((Nat.le_div_iff_mul_le (by decide)).2 hb)

theorem getElem_run_eraseBelow_of_le {limit : Nat} (hblocks : 2 * blockSize ≤ limit)
    (hspace : limit < addressSpace) (m : Nor n) {i : Nat} (hi : i < n) (hb : limit ≤ i) :
    ((eraseBelow limit).run m).2.cells[i] = m.cells[i] := by
  have hn : limit ≤ n := Nat.le_of_lt (Nat.lt_of_le_of_lt hb hi)
  exact getElem_run_eraseBelow_above (Nat.le_trans hblocks hn) hn hspace m hi
    (Nat.le_trans hblocks hb) (Nat.le_trans (Nat.div_mul_le_self limit blockSize) hb)

/-! ## Cut anywhere -/

/-- The cells after the erase of block 0: the only front part of the sequence without the vector at
address 0, and the copy in block 1 holds it. -/
theorem storedAt_take_three {vector : Bytes} (hlen : vector.length = vectorLen) {blocks : Nat}
    (h : 0 < blocks) (cells : Vector UInt8 n) :
    StoredAt vector vectorBackup (applyAll ((eraseChanges vector blocks).take 3) cells) ∧
      StoredAt blankVector 0 (applyAll ((eraseChanges vector blocks).take 3) cells) := by
  have hlen4 : vector.length = 4 := hlen
  rw [eraseChanges_eq vector h]
  simp only [List.take_succ_cons, List.take_zero, applyAll_cons, applyAll_nil]
  constructor
  · have hcopied : StoredAt vector vectorBackup
        (programChange (vectorBackup, vector) (eraseChange 1 cells)) :=
      storedAt_programCells fun k hk (hge : 64 ≤ k) (hlt : k < 64 + vector.length) => by
        rw [getElem_eraseChange _ _ hk, if_pos (by omega)]
    refine hcopied.of_unchanged fun k hk (hge : 64 ≤ k) _ => ?_
    rw [getElem_eraseChange _ _ hk, if_neg (by omega)]
  · refine storedAt_blankVector fun k hk _ (hlt : k < 0 + 4) => ?_
    rw [getElem_eraseChange _ _ hk, if_pos (by omega)]

/-- After any other front part the vector is at address 0, if it was there before. -/
theorem storedAt_take_eraseChanges {vector : Bytes} (hlen : vector.length = vectorLen)
    {blocks : Nat} (h : 0 < blocks) {cells : Vector UInt8 n} (hstored : StoredAt vector 0 cells)
    {k : Nat} (hk : k ≠ 3) :
    StoredAt vector 0 (applyAll ((eraseChanges vector blocks).take k) cells) := by
  have hlen4 : vector.length = 4 := hlen
  have hfirst : StoredAt vector 0 (eraseChange 1 cells) :=
    hstored.of_unchanged fun i hi _ hlt => by rw [getElem_eraseChange _ _ hi, if_neg (by omega)]
  have hsecond : StoredAt vector 0 (programChange (vectorBackup, vector) (eraseChange 1 cells)) :=
    hfirst.of_unchanged fun i hi _ hlt =>
      getElem_programCells_of_not_mem hi (Or.inl (show i < 64 by omega))
  rw [eraseChanges_eq vector h]
  match k with
  | 0 => exact hstored
  | 1 => exact hfirst
  | 2 => exact hsecond
  | 3 => exact absurd rfl hk
  | k + 4 =>
    have hfourth : StoredAt vector 0 (programChange (0, vector) (eraseChange 0
        (programChange (vectorBackup, vector) (eraseChange 1 cells)))) :=
      storedAt_programCells fun i hi _ hlt => by
        rw [getElem_eraseChange _ _ hi, if_pos (by omega)]
    refine hfourth.of_unchanged fun i hi _ hlt => ?_
    simp only [List.take_succ_cons, applyAll_cons]
    refine getElem_applyAll hi (fun change hm cells => ?_) _
    exact getElem_blockChanges_of_lt Nat.one_pos (List.mem_of_mem_take hm) cells hi (by omega)

/-- Programming a blank vector never unsets an erased cell. -/
theorem erased_programChange_blank {addr : Nat} {cells : Vector UInt8 n} {i : Nat} (hi : i < n)
    (h : cells[i] = erased) : (programChange (addr, blankVector) cells)[i] = erased := by
  rw [programChange, Nor.getElem_programCells]
  split
  · simp [h]
  · exact h

theorem erased_eraseChange {index : Nat} {cells : Vector UInt8 n} {i : Nat} (hi : i < n)
    (h : cells[i] = erased) : (eraseChange index cells)[i] = erased := by
  rw [getElem_eraseChange index cells hi]
  split
  · rfl
  · exact h

/-- Erasing blocks around a blank vector never unsets an erased cell. -/
theorem erased_of_mem_blockChanges {index count : Nat} {change : Change n}
    (hm : change ∈ blockChanges blankVector index count) {cells : Vector UInt8 n} {i : Nat}
    (hi : i < n) (h : cells[i] = erased) : (change cells)[i] = erased := by
  induction count generalizing index with
  | zero => cases hm
  | succ count ih =>
    rcases List.mem_append.1 hm with hm | hm
    · rcases List.mem_cons.1 hm with rfl | hm
      · exact erased_eraseChange hi h
      · split at hm
        · rw [List.mem_singleton.1 hm]
          exact erased_programChange_blank hi h
        · cases hm
    · exact ih hm

/-- A sequence that reads a blank vector only erases: its first command wipes the copy, and nothing
is ever stored in either place. -/
theorem storedAt_take_blank {blocks : Nat} {cells : Vector UInt8 n}
    (hblank : StoredAt blankVector 0 cells) {k : Nat} (hk : 0 < k) :
    StoredAt blankVector 0 (applyAll ((eraseChanges blankVector blocks).take k) cells) ∧
      StoredAt blankVector vectorBackup
        (applyAll ((eraseChanges blankVector blocks).take k) cells) := by
  obtain ⟨k, rfl⟩ : ∃ j, k = j + 1 := ⟨k - 1, by omega⟩
  have hkeep : ∀ i (hi : i < n), (eraseChange 1 cells)[i] = erased →
      (applyAll ((eraseChanges blankVector blocks).take (k + 1)) cells)[i] = erased := by
    intro i hi h
    rw [eraseChanges, List.take_succ_cons, applyAll_cons]
    refine applyAll_preserves (P := fun cells => cells[i] = erased)
      (fun change hm cells hcell => ?_) h
    rcases List.mem_cons.1 (List.mem_of_mem_take hm) with rfl | hm
    · exact erased_programChange_blank hi hcell
    · exact erased_of_mem_blockChanges hm hi hcell
  constructor
  · refine storedAt_blankVector fun i hi _ (hlt : i < 0 + 4) => hkeep i hi ?_
    have hcell := hblank i (by simp only [List.length_replicate]; omega) (by omega)
    simp only [Nat.zero_add, List.getElem_replicate] at hcell
    exact erased_eraseChange hi hcell
  · refine storedAt_blankVector fun i hi (hge : 64 ≤ i) (hlt : i < 64 + 4) => hkeep i hi ?_
    rw [getElem_eraseChange _ _ hi, if_pos (by omega)]

end SignedBoot.Flash
