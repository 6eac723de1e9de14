import SignedBoot.Attempt
import SignedBoot.Layout
import SignedBoot.Quota

/-!
# NOR program memory

Erased bytes read `0xFF`, and programming can only clear bits: a programmed byte is the conjunction
of what was there and what was written. Erasing works on whole blocks.

Every erase and every program command is one operation, and a power cut can be scheduled after a
given number of them. A command is checked first, then paid for, then carried out; one that fails
leaves the memory as it was.
-/

namespace SignedBoot.Flash

/-- Why a memory command failed. -/
inductive Fault where
  /-- An erase range did not start and end on block boundaries. -/
  | notAligned
  /-- The command reached past the end of memory. -/
  | outOfBounds
  /-- The scheduled power cut came first; the command did not happen. -/
  | powerLoss
  /-- Computing an address needed more than 32 bits. -/
  | addressOverflow
  deriving DecidableEq, Repr

/-- The name of a failure. -/
def Fault.name : Fault → String
  | notAligned => "NotAligned"
  | outOfBounds => "OutOfBounds"
  | powerLoss => "PowerLoss"
  | addressOverflow => "AddressOverflow"

/-- A memory of `n` bytes. -/
structure Nor (n : Nat) where
  /-- What each byte reads as. -/
  cells : Vector UInt8 n
  /-- Number of completed erase and program commands. -/
  operations : Nat
  /-- How many more commands complete before the power is cut, if a cut is scheduled. -/
  power : Quota

/-- Something done to a memory. -/
abbrev Action (n : Nat) (α : Type) := Attempt (Nor n) Fault α

namespace Nor

variable {n : Nat}

/-- A fully erased memory. -/
def blank (n : Nat) : Nor n :=
  ⟨Vector.replicate n Layout.erased, 0, none⟩

/-- The bytes from `addr` on, as many as `len` but none past the end. -/
def slice (m : Nor n) (addr len : Nat) : Bytes :=
  (m.cells.toArray.extract addr (addr + len)).toList

/-- Reads `len` bytes at `addr`. -/
def read (m : Nor n) (addr len : Nat) : Except Fault Bytes :=
  if addr + len ≤ n then .ok (m.slice addr len) else .error .outOfBounds

/-- Schedules a power cut after `operations` more commands. -/
def cutAfter (m : Nor n) (operations : Nat) : Nor n :=
  { m with power := some operations }

/-- Takes back a scheduled power cut. -/
def restorePower (m : Nor n) : Nor n :=
  { m with power := none }

/-- Erases `len` cells from `addr` on; cells past the end do not exist. -/
def eraseCells (cells : Vector UInt8 n) (addr : Nat) : Nat → Vector UInt8 n
  | 0 => cells
  | len + 1 =>
    if h : addr < n then eraseCells (cells.set addr Layout.erased h) (addr + 1) len else cells

/-- Programs a run of bytes into the cells from `addr` on; cells past the end do not exist. -/
def programCells (cells : Vector UInt8 n) (addr : Nat) : Bytes → Vector UInt8 n
  | [] => cells
  | b :: bs =>
    if h : addr < n then programCells (cells.set addr (cells[addr] &&& b) h) (addr + 1) bs
    else cells

/-- Erasing a run of cells sets those and no others. -/
theorem getElem_eraseCells (cells : Vector UInt8 n) (addr len i : Nat) (hi : i < n) :
    (eraseCells cells addr len)[i] =
      if addr ≤ i ∧ i < addr + len then Layout.erased else cells[i] := by
  induction len generalizing cells addr with
  | zero =>
    rw [eraseCells, if_neg (by omega)]
  | succ len ih =>
    unfold eraseCells
    split
    · next h =>
      rw [ih, Vector.getElem_set]
      by_cases hai : addr = i
      · rw [if_neg (by omega), if_pos hai, if_pos (by omega)]
      · rw [if_neg hai]
        by_cases hr : addr + 1 ≤ i ∧ i < addr + 1 + len
        · rw [if_pos hr, if_pos (by omega)]
        · rw [if_neg hr, if_neg (by omega)]
    · next h =>
      rw [if_neg (by omega)]

/-- Programming a run of bytes clears bits in their cells and leaves all others alone. -/
theorem getElem_programCells (cells : Vector UInt8 n) (addr : Nat) (bs : Bytes) (i : Nat)
    (hi : i < n) :
    (programCells cells addr bs)[i] =
      if h : addr ≤ i ∧ i < addr + bs.length then
        have : i - addr < bs.length := by omega
        cells[i] &&& bs[i - addr]
      else cells[i] := by
  induction bs generalizing cells addr with
  | nil =>
    rw [programCells, dif_neg (by simp only [List.length_nil]; omega)]
  | cons b bs ih =>
    unfold programCells
    split
    · next h =>
      rw [ih]
      by_cases hai : addr = i
      · subst hai
        rw [dif_neg (by omega), dif_pos (by simp)]
        simp
      · by_cases hr : addr + 1 ≤ i ∧ i < addr + 1 + bs.length
        · rw [dif_pos hr, dif_pos (by simp only [List.length_cons]; omega)]
          obtain ⟨k, rfl⟩ : ∃ k, i = addr + 1 + k := ⟨i - (addr + 1), by omega⟩
          have h1 : addr + 1 + k - (addr + 1) = k := by omega
          have h2 : addr + 1 + k - addr = k + 1 := by omega
          simp only [h1, h2, List.getElem_cons_succ]
          rw [Vector.getElem_set_ne (by omega) (by omega) (by omega)]
        · rw [dif_neg hr, dif_neg (by simp only [List.length_cons]; omega),
            Vector.getElem_set_ne (by omega) (by omega) (by omega)]
    · next h =>
      have beyond : ¬ (addr ≤ i ∧ i < addr + (b :: bs).length) := by omega
      rw [dif_neg beyond]

/-- The memory after paying for one command, unless the power is cut first. -/
def pay? (m : Nor n) : Option (Nor n) :=
  m.power.spend?.map fun power => { m with operations := m.operations + 1, power }

end Nor

variable {n : Nat}

/-- Reads `len` bytes at `addr`, as an action. -/
def read (addr len : Nat) : Action n Bytes :=
  ⟨fun m => (m.read addr len, m)⟩

/-- Pays for one command and applies it to the cells. -/
def command (f : Vector UInt8 n → Vector UInt8 n) : Action n Unit :=
  ⟨fun m =>
    match m.pay? with
    | none => (.error .powerLoss, m)
    | some m => (.ok (), { m with cells := f m.cells })⟩

/-- Whether an erase range is made of whole blocks. -/
def IsAligned (lo hi : Nat) : Prop :=
  lo ≤ hi ∧ lo % Layout.blockSize = 0 ∧ hi % Layout.blockSize = 0

instance (lo hi : Nat) : Decidable (IsAligned lo hi) :=
  inferInstanceAs (Decidable (_ ∧ _ ∧ _))

/-- Erases the blocks that make up `lo..hi`. -/
def erase (lo hi : Nat) : Action n Unit :=
  if ¬ IsAligned lo hi then .fail .notAligned
  else if n < hi then .fail .outOfBounds
  else command fun cells => Nor.eraseCells cells lo (hi - lo)

/-- Programs a run of bytes at `addr` in one command. -/
def write (addr : Nat) (bs : Bytes) : Action n Unit :=
  if n < addr + bs.length then .fail .outOfBounds
  else command fun cells => Nor.programCells cells addr bs

end SignedBoot.Flash
