import SignedBoot.Patch
import SignedBoot.Proofs.Host.LoadedImage

/-!
# What a patched file describes

The jump to the loader is put in front of the records of the input. In a memory that is described
record by record the last word counts, so the jump is in force only at those of its addresses for
which the input has nothing to say, or says the same.
-/

namespace SignedBoot.Patch

open Host IntelHex Layout

/-- A memory with the jump at its beginning, instead of whatever was there. -/
def withVector (memory : Nat → Option UInt8) (a : Nat) : Option UInt8 :=
  if a < vectorLen then goto[a]? else memory a

/-- Whether the data of a file leaves the jump as it is: at no address of the jump does the file end up
with another byte. -/
def LeavesVector (records : List Record) : Prop :=
  ∀ a < vectorLen, ∀ b, lastByte? (placements 0 records) a = some b → goto[a]? = some b

theorem length_goto : goto.length = vectorLen := rfl

/-- The input has the last word, and the jump stands where it is silent. -/
theorem lastByte?_addVector (records : List Record) (a : Nat) :
    lastByte? (placements 0 (addVector records)) a =
      (lastByte? (placements 0 records) a).or goto[a]? :=
  lastByte?_cons _ _ a

/-- Another base than zero is at least one paragraph. -/
theorem base_of_mem_placements {base : Nat} {records : List Record} {p : Placement}
    (hbase : base = 0 ∨ 16 ≤ base) (hp : p ∈ placements base records) : p.base = 0 ∨ 16 ≤ p.base := by
  fun_induction placements base records with
  | case1 => cases hp
  | case2 base upper rest ih => exact ih (by omega) hp
  | case3 base paragraphs rest ih => exact ih (by omega) hp
  | case4 base offset value rest ih =>
    rcases List.mem_cons.1 hp with rfl | hp
    · exact hbase
    · exact ih hbase hp
  | case5 => cases hp
  | case6 base segment offset rest ih => exact ih hbase hp
  | case7 base addr rest ih => exact ih hbase hp

/-- The loader passes over no byte that is given for an address of the jump. -/
theorem cell_load_addVector (records : List Record) {a : Nat} (ha : a < vectorLen) :
    cell (Image.load 0 #[] (addVector records)) a =
      (lastByte? (placements 0 (addVector records)) a).getD erased := by
  have hnear : ∀ p ∈ placements 0 (addVector records), p.base = 0 ∨ a < p.start := by
    intro p hp
    refine (base_of_mem_placements (.inl rfl) hp).imp_right fun hbase => ?_
    have ha4 : a < 4 := ha
    unfold Placement.start
    omega
  rw [Image.cell_load, lastByte?_underZero hnear]

theorem withVector_iff (records : List Record) :
    (∀ a, lastByte? (placements 0 (addVector records)) a =
        withVector (lastByte? (placements 0 records)) a) ↔ LeavesVector records := by
  constructor
  · intro h a ha b hb
    have hhere := h a
    rw [lastByte?_addVector, hb, withVector, if_pos ha] at hhere
    exact hhere.symm
  · intro h a
    rw [lastByte?_addVector, withVector]
    by_cases ha : a < vectorLen
    · rw [if_pos ha]
      cases hb : lastByte? (placements 0 records) a with
      | none => rfl
      | some b => exact (h a ha b hb).symm
    · have hbehind : goto[a]? = none := by
        rw [List.getElem?_eq_none_iff, length_goto]
        exact Nat.le_of_not_lt ha
      rw [if_neg ha, hbehind, Option.or_none]

theorem cells_eq_goto_iff (records : List Record) :
    (∀ a < vectorLen, some (cell (Image.load 0 #[] (addVector records)) a) = goto[a]?) ↔
      LeavesVector records := by
  have hcell (a : Nat) (ha : a < vectorLen) :
      cell (Image.load 0 #[] (addVector records)) a =
        ((lastByte? (placements 0 records) a).or goto[a]?).getD erased := by
    rw [cell_load_addVector records ha, lastByte?_addVector]
  constructor
  · intro h a ha b hb
    rw [← h a ha, hcell a ha, hb]
    rfl
  · intro h a ha
    rw [hcell a ha]
    cases hb : lastByte? (placements 0 records) a with
    | none =>
      rw [Option.none_or, List.getElem?_eq_getElem (length_goto ▸ ha)]
      rfl
    | some b => exact (h a ha b hb).symm

/-- A file is patched into its records behind the jump, and the memory of those is the input's, with
the jump where the input gives nothing. So it is the input's memory with the jump at its beginning, and
what is loaded from it begins with the jump, exactly if the input gives no other byte for one of the
jump's addresses. -/
theorem patched_memory_iff (records : List Record) :
    (∀ text, IntelHex.read text = (records, none) → patch text = .ok (addVector records)) ∧
      (∀ a, lastByte? (placements 0 (addVector records)) a =
        (lastByte? (placements 0 records) a).or goto[a]?) ∧
      ((∀ a, lastByte? (placements 0 (addVector records)) a =
          withVector (lastByte? (placements 0 records)) a) ↔ LeavesVector records) ∧
      ((∀ a < vectorLen, some (cell (Image.load 0 #[] (addVector records)) a) = goto[a]?) ↔
        LeavesVector records) := by
  refine ⟨fun text hread => ?_, lastByte?_addVector records, withVector_iff records,
    cells_eq_goto_iff records⟩
  rw [patch, hread]

/-- A loader as linked, with a byte in its second word and a configuration word at offset 0. -/
def linkedLoader : String :=
  ":02600000123458\n:0100040007F4\n:020000040030CA\n:0100000055AA\n:00000001FF\n"

/-- The records in it. -/
def linkedRecords : List Record :=
  [.data 0x6000 [0x12, 0x34], .data 4 [0x07], .extendedLinear 0x30, .data 0 [0x55], .endOfFile]

theorem linked_loader_gets_vector :
    IntelHex.read linkedLoader = (linkedRecords, none) ∧
      patch linkedLoader = .ok (addVector linkedRecords) ∧
      ∀ a, lastByte? (placements 0 (addVector linkedRecords)) a =
        withVector (lastByte? (placements 0 linkedRecords)) a := by
  have hread : IntelHex.read linkedLoader = (linkedRecords, none) := by
    decide +kernel
  have hsilent : ∀ a < vectorLen, lastByte? (placements 0 linkedRecords) a = none := by
    decide +kernel
  obtain ⟨hpatch, -, hmemory, -⟩ := patched_memory_iff linkedRecords
  refine ⟨hread, hpatch _ hread, hmemory.2 fun a ha b hb => ?_⟩
  cases (hsilent a ha).symm.trans hb

/-- A file with a word of its own at address 0. -/
def occupiedFile : String :=
  ":0400000012345678E8\n:00000001FF\n"

/-- That word stays in force in the patched file. -/
theorem own_word_hides_vector :
    ¬ ∀ (text : String) (records patched : List Record), IntelHex.read text = (records, none) →
      records.getLast? = some .endOfFile → patch text = .ok patched →
        ∀ a, lastByte? (placements 0 patched) a =
          withVector (lastByte? (placements 0 records)) a := by
  intro h
  have hread : IntelHex.read occupiedFile =
      ([.data 0 [0x12, 0x34, 0x56, 0x78], .endOfFile], none) := by
    decide +kernel
  have hpatch : patch occupiedFile =
      .ok [.data 0 goto, .data 0 [0x12, 0x34, 0x56, 0x78], .endOfFile] := by
    rw [patch, hread]
    rfl
  have hfirst := h _ _ _ hread rfl hpatch 0
  have hother : lastByte? (placements 0
      [.data 0 goto, .data 0 [0x12, 0x34, 0x56, 0x78], .endOfFile]) 0 ≠
        withVector (lastByte? (placements 0 [.data 0 [0x12, 0x34, 0x56, 0x78], .endOfFile])) 0 := by
    decide
  exact hother hfirst

end SignedBoot.Patch
