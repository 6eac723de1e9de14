import Mathlib.Data.List.Basic
import Mathlib.Tactic.Common
import SignedBoot.Device.Session
import SignedBoot.Proofs.Flash.Programming
import SignedBoot.Proofs.Wire.RequestCodec

/-!
# Checked accesses

On the device an index or a range past the end of an array stops the program, and so does a sum, a
difference or a product that leaves the 32 bits of a number. None of this shows in definitions on
lists and natural numbers. So what the device does with memory, frames and requests is written down
here a second time, with a check in front of each such step and a trap for one that fails.

Each checked operation then does exactly what the unchecked one does, as long as its operands are in
reach; that the operands are always in reach is the business of the callers.
-/

namespace SignedBoot.Device.Trapping

open Flash Layout Wire

/-- Why a program was stopped. -/
inductive Trap where
  /-- An index lies past the end of an array. -/
  | index
  /-- A range does not lie inside an array, or what is copied into it has another length. -/
  | slice
  /-- A number does not fit into 32 bits, or would be negative. -/
  | overflow
  deriving DecidableEq, Repr

/-- Why a checked operation came to no result. -/
inductive Crash (ε : Type) where
  | trap (t : Trap)
  /-- The operation failed like the unchecked one. -/
  | error (e : ε)
  deriving DecidableEq, Repr

section
variable {α : Type}

def require (p : Prop) [Decidable p] (trap : Trap) : Except Trap Unit :=
  if p then .ok () else .error trap

def add (a b : Nat) : Except Trap Nat :=
  if a + b < addressSpace then .ok (a + b) else .error .overflow

def sub (a b : Nat) : Except Trap Nat :=
  if b ≤ a then .ok (a - b) else .error .overflow

def mul (a b : Nat) : Except Trap Nat :=
  if a * b < addressSpace then .ok (a * b) else .error .overflow

def get (xs : List α) (i : Nat) : Except Trap α :=
  if h : i < xs.length then .ok xs[i] else .error .index

def set (xs : List α) (i : Nat) (x : α) : Except Trap (List α) :=
  if i < xs.length then .ok (xs.set i x) else .error .index

/-- The elements from `lo` on that lie before `hi`. -/
def slice (xs : List α) (lo hi : Nat) : Except Trap (List α) :=
  if lo ≤ hi ∧ hi ≤ xs.length then .ok ((xs.take hi).drop lo) else .error .slice

/-- Copies a list over the elements from `lo` on that lie before `hi`. -/
def copy (xs : List α) (lo hi : Nat) (ys : List α) : Except Trap (List α) :=
  if lo ≤ hi ∧ hi ≤ xs.length ∧ hi - lo = ys.length then .ok (xs.take lo ++ ys ++ xs.drop hi)
  else .error .slice

theorem require_ok {p : Prop} [Decidable p] (h : p) (trap : Trap) : require p trap = .ok () :=
  if_pos h

theorem add_ok {a b : Nat} (h : a + b < addressSpace) : add a b = .ok (a + b) :=
  if_pos h

theorem sub_ok {a b : Nat} (h : b ≤ a) : sub a b = .ok (a - b) :=
  if_pos h

theorem mul_ok {a b : Nat} (h : a * b < addressSpace) : mul a b = .ok (a * b) :=
  if_pos h

theorem get_ok {xs : List α} {i : Nat} (h : i < xs.length) : get xs i = .ok xs[i] :=
  dif_pos h

theorem set_ok {xs : List α} {i : Nat} (h : i < xs.length) (x : α) : set xs i x = .ok (xs.set i x) :=
  if_pos h

theorem slice_ok {xs : List α} {lo hi : Nat} (hle : lo ≤ hi) (hhi : hi ≤ xs.length) :
    slice xs lo hi = .ok ((xs.take hi).drop lo) :=
  if_pos ⟨hle, hhi⟩

theorem copy_ok {xs ys : List α} {lo hi : Nat} (hle : lo ≤ hi) (hhi : hi ≤ xs.length)
    (hlen : hi - lo = ys.length) : copy xs lo hi ys = .ok (xs.take lo ++ ys ++ xs.drop hi) :=
  if_pos ⟨hle, hhi, hlen⟩

end

section
variable {σ ε α β : Type}

/-- A check as an operation. -/
def checked (x : Except Trap α) : Attempt σ (Crash ε) α :=
  ⟨fun s => (x.mapError .trap, s)⟩

/-- An operation that does not trap. -/
def safe (x : Attempt σ ε α) : Attempt σ (Crash ε) α :=
  x.mapError .error

/-- Carries out an operation, unless it traps. -/
def settle (x : Attempt σ (Crash ε) α) (s : σ) : Except Trap (Except ε α × σ) :=
  match x.run s with
  | (.ok a, s) => .ok (.ok a, s)
  | (.error (.error e), s) => .ok (.error e, s)
  | (.error (.trap t), _) => .error t

@[simp]
theorem checked_ok (a : α) : (checked (.ok a) : Attempt σ (Crash ε) α) = pure a := rfl

theorem safe_bind (x : Attempt σ ε α) (f : α → Attempt σ ε β) :
    safe (x >>= f) = safe x >>= fun a => safe (f a) :=
  Attempt.mapError_bind x f Crash.error

theorem run_safe_ok {x : Attempt σ ε α} {s s' : σ} {a : α} (h : x.run s = (.ok a, s')) :
    (safe x).run s = (.ok a, s') :=
  Attempt.run_mapError_ok h

theorem run_safe_error {x : Attempt σ ε α} {s s' : σ} {e : ε} (h : x.run s = (.error e, s')) :
    (safe x).run s = (.error (.error e), s') :=
  Attempt.run_mapError_error h

@[simp]
theorem settle_safe (x : Attempt σ ε α) (s : σ) : settle (safe x) s = .ok (x.run s) := by
  rcases hx : x.run s with ⟨e | a, s'⟩
  · rw [settle, run_safe_error hx]
  · rw [settle, run_safe_ok hx]

end

variable {n k : Nat}

/-! ## Program memory -/

/-- The check that every memory command begins with, and the slice of the cells it works on. -/
def span (addr len : Nat) : Attempt (Nor n) (Crash Fault) Unit := do
  if n < addr + len then .fail (.error .outOfBounds)
  checked (require (addr ≤ addr + len ∧ addr + len ≤ n) .slice)

def read (addr len : Nat) : Attempt (Nor n) (Crash Fault) Bytes := do
  span addr len
  Attempt.mk fun m => (.ok (m.slice addr len), m)

def write (addr : Nat) (bs : Bytes) : Attempt (Nor n) (Crash Fault) Unit := do
  span addr bs.length
  safe (command fun cells => Nor.programCells cells addr bs)

def erase (lo hi : Nat) : Attempt (Nor n) (Crash Fault) Unit :=
  if ¬ IsAligned lo hi then .fail (.error .notAligned)
  else do
    let len ← checked (sub hi lo)
    span lo len
    safe (command fun cells => Nor.eraseCells cells lo len)

theorem span_eq (addr len : Nat) : (span addr len : Attempt (Nor n) (Crash Fault) Unit) =
    if n < addr + len then .fail (.error .outOfBounds) else pure () := by
  unfold span
  split
  · rfl
  · next h =>
    rw [require_ok ⟨Nat.le_add_right addr len, Nat.not_lt.1 h⟩]
    rfl

theorem read_eq (addr len : Nat) :
    (read addr len : Attempt (Nor n) (Crash Fault) Bytes) = safe (Flash.read addr len) := by
  refine Attempt.eq_of_run fun m => ?_
  rw [read, span_eq]
  by_cases h : n < addr + len
  · have hread : (Flash.read addr len).run m = (.error .outOfBounds, m) :=
      congrArg (·, m) (if_neg (Nat.not_le.2 h))
    rw [if_pos h, run_safe_error hread]
    rfl
  · have hread : (Flash.read addr len).run m = (.ok (m.slice addr len), m) :=
      congrArg (·, m) (m.read_eq_ok (Nat.not_lt.1 h))
    rw [if_neg h, run_safe_ok hread]
    rfl

theorem write_eq (addr : Nat) (bs : Bytes) :
    (write addr bs : Attempt (Nor n) (Crash Fault) Unit) = safe (Flash.write addr bs) := by
  rw [write, span_eq, Flash.write]
  split <;> rfl

theorem erase_eq (lo hi : Nat) :
    (erase lo hi : Attempt (Nor n) (Crash Fault) Unit) = safe (Flash.erase lo hi) := by
  rw [erase, Flash.erase]
  by_cases h : IsAligned lo hi
  · have hback : lo + (hi - lo) = hi := Nat.add_sub_cancel' h.1
    rw [if_neg (not_not_intro h), if_neg (not_not_intro h), sub_ok h.1, checked_ok, pure_bind,
      span_eq, hback]
    split <;> rfl
  · rw [if_pos h, if_pos h]
    rfl

def program (addr : Nat) : Bytes → Attempt (Nor n) (Crash Fault) Unit
  | [] => pure ()
  | b :: bs => do
    checked (require (addr % blockSize ≤ blockSize) .overflow)
    let room := blockSize - addr % blockSize
    let len := min room (b :: bs).length
    checked (require (len ≤ (b :: bs).length) .slice)
    write addr ((b :: bs).take len)
    checked (require (addr + len < addressSpace) .overflow)
    program (addr + len) ((b :: bs).drop len)
termination_by bs => bs.length
decreasing_by
  have : 0 < blockSize - addr % blockSize := Nat.sub_pos_of_lt (Nat.mod_lt _ (by decide))
  simp only [List.length_drop, List.length_cons]
  omega

/-- A run that ends inside the address space is programmed without a trap. -/
theorem program_eq {addr : Nat} {bs : Bytes} (h : addr + bs.length < addressSpace) :
    (program addr bs : Attempt (Nor n) (Crash Fault) Unit) = safe (Flash.program addr bs) := by
  fun_induction segments addr bs with
  | case1 addr =>
    rw [program, Flash.program, segments_nil]
    rfl
  | case2 addr b bs room ih =>
    have hlen : ((b :: bs).take room).length = min room (b :: bs).length := List.length_take
    have htake : (b :: bs).take (min room (b :: bs).length) = (b :: bs).take room := by
      rw [← List.take_take, List.take_length]
    have hdrop : (b :: bs).drop (min room (b :: bs).length) = (b :: bs).drop room := by
      by_cases hroom : room ≤ (b :: bs).length
      · rw [Nat.min_eq_left hroom]
      · rw [Nat.min_eq_right (by omega), List.drop_length, List.drop_of_length_le (by omega)]
    have hend : addr + min room (b :: bs).length < addressSpace := by omega
    have hcommit : (commit (addr, (b :: bs).take room) : Action n Unit) =
        Flash.write addr ((b :: bs).take room) := by
      rw [commit, if_neg (by rw [hlen]; omega)]
      exact bind_pure _
    have hrest := ih (by rw [hlen, List.length_drop]; omega)
    have hprogram : (Flash.program addr (b :: bs) : Action n Unit) =
        commit (addr, (b :: bs).take room) >>= fun _ =>
          Flash.program (addr + ((b :: bs).take room).length) ((b :: bs).drop room) := by
      rw [Flash.program, segments]
      rfl
    rw [hprogram, safe_bind, hcommit, ← write_eq, ← hrest, program,
      require_ok (Nat.le_of_lt (Nat.mod_lt _ (by decide))), hlen]
    simp only [checked_ok, pure_bind, require_ok (Nat.min_le_right _ _), require_ok hend, htake,
      hdrop, room]

def eraseBlock (index : Nat) : Attempt (Nor n) (Crash Fault) Unit := do
  let lo ← checked (mul index blockSize)
  let hi ← checked (add lo blockSize)
  erase lo hi

def eraseAndKeep (vector : Bytes) (index : Nat) : Attempt (Nor n) (Crash Fault) Unit := do
  eraseBlock index
  if index = 0 then program 0 vector

def eraseBlocks (vector : Bytes) (index : Nat) : (count : Nat) → Attempt (Nor n) (Crash Fault) Unit
  | 0 => pure ()
  | count + 1 => do
    eraseAndKeep vector index
    eraseBlocks vector (index + 1) count

def eraseBelow (limit : Nat) : Attempt (Nor n) (Crash Fault) Unit := do
  let vector ← read 0 vectorLen
  eraseBlock (vectorBackup / blockSize)
  program vectorBackup vector
  eraseBlocks vector 0 (limit / blockSize)

theorem eraseBlock_eq {index : Nat} (h : (index + 1) * blockSize < addressSpace) :
    (eraseBlock index : Attempt (Nor n) (Crash Fault) Unit) = safe (Flash.eraseBlock index) := by
  have hhi : index * blockSize + blockSize = (index + 1) * blockSize := (Nat.succ_mul _ _).symm
  have hlo : index * blockSize < addressSpace := by omega
  rw [eraseBlock, Flash.eraseBlock, if_neg (Nat.not_le.2 h), mul_ok hlo, checked_ok, pure_bind,
    add_ok (by rw [hhi]; exact h), checked_ok, pure_bind, hhi, erase_eq]

theorem eraseAndKeep_eq {vector : Bytes} (hlen : vector.length ≤ vectorLen) {index : Nat}
    (h : (index + 1) * blockSize < addressSpace) :
    (eraseAndKeep vector index : Attempt (Nor n) (Crash Fault) Unit) =
      safe (Flash.eraseAndKeep vector index) := by
  have hvector : 0 + vector.length < addressSpace := by
    have hlen4 : vector.length ≤ 4 := hlen
    have hspace : 4 < addressSpace := by decide
    omega
  rw [eraseAndKeep, Flash.eraseAndKeep, safe_bind, eraseBlock_eq h, program_eq hvector]
  split <;> rfl

theorem eraseBlocks_eq {vector : Bytes} (hlen : vector.length ≤ vectorLen) {index count : Nat}
    (h : (index + count) * blockSize < addressSpace) :
    (eraseBlocks vector index count : Attempt (Nor n) (Crash Fault) Unit) =
      safe (Flash.eraseBlocks vector index count) := by
  induction count generalizing index with
  | zero => rfl
  | succ count ih =>
    have hfirst : (index + 1) * blockSize < addressSpace :=
      Nat.lt_of_le_of_lt (Nat.mul_le_mul_right _ (by omega)) h
    have hrest : (index + 1 + count) * blockSize < addressSpace := by
      rw [Nat.add_right_comm]
      exact h
    rw [eraseBlocks, Flash.eraseBlocks, safe_bind, eraseAndKeep_eq hlen hfirst, ih hrest]

/-- Erasing below a limit inside the address space does not trap. -/
theorem eraseBelow_eq {limit : Nat} (h : limit < addressSpace) :
    (eraseBelow limit : Attempt (Nor n) (Crash Fault) Unit) = safe (Flash.eraseBelow limit) := by
  have hwhole : (0 + limit / blockSize) * blockSize < addressSpace := by
    rw [Nat.zero_add]
    exact Nat.lt_of_le_of_lt (Nat.div_mul_le_self limit blockSize) h
  rw [eraseBelow, Flash.eraseBelow, safe_bind, read_eq]
  refine Attempt.eq_of_run fun m => ?_
  rcases hread : (Flash.read 0 vectorLen : Action n Bytes).run m with ⟨fault | vector, m'⟩
  · rw [Attempt.run_bind_error (run_safe_error hread),
      Attempt.run_bind_error (run_safe_error hread)]
  · have hlen : vector.length ≤ 4 := by
      have hvector : m.read 0 vectorLen = .ok vector := congrArg Prod.fst hread
      unfold Nor.read at hvector
      split at hvector
      · next hfits =>
        cases hvector
        exact Nat.le_of_eq (m.length_slice hfits)
      · cases hvector
    have hbackup : vectorBackup + vector.length < addressSpace := by
      have hspace : vectorBackup + 4 < addressSpace := by decide
      omega
    rw [Attempt.run_bind_ok (run_safe_ok hread),
      Attempt.run_bind_ok (run_safe_ok hread), safe_bind, safe_bind,
      eraseBlock_eq (by decide), program_eq hbackup, eraseBlocks_eq hlen hwhole]

/-! ## Frames -/

/-- A receive buffer, about which nothing is known. -/
structure Buffer where
  bytes : Bytes
  /-- Number of bytes collected. -/
  index : Nat
  /-- Whether the next byte is literal. -/
  escaped : Bool

def Buffer.ofAssembler (s : Assembler k) : Buffer :=
  ⟨s.buffer.toList, s.index, s.escaped⟩

@[simp]
theorem Buffer.bytes_ofAssembler (s : Assembler k) : (ofAssembler s).bytes = s.buffer.toList := rfl

@[simp]
theorem Buffer.index_ofAssembler (s : Assembler k) : (ofAssembler s).index = s.index := rfl

@[simp]
theorem Buffer.escaped_ofAssembler (s : Assembler k) : (ofAssembler s).escaped = s.escaped := rfl

def Buffer.store (s : Buffer) (b : UInt8) : Except Trap Buffer := do
  let bytes ← set s.bytes s.index b
  let index ← add s.index 1
  return ⟨bytes, if index = bytes.length then 0 else index, false⟩

def Buffer.frame (s : Buffer) : Except Trap Frame :=
  if s.index < 2 then .ok ⟨none, []⟩
  else do
    let opcode ← get s.bytes 1
    let payload ← slice s.bytes 2 s.index
    return ⟨some opcode, payload⟩

/-- Whether the bytes collected so far begin with `@`. -/
def Buffer.opened (s : Buffer) : Except Trap Bool :=
  if 0 < s.index then do
    let first ← get s.bytes 0
    return decide (first = frameStart)
  else .ok false

def Buffer.feed (s : Buffer) (b : UInt8) : Except Trap (Buffer × Option Frame) := do
  if s.escaped then
    return (← s.store b, none)
  else if b = frameEscape then
    return ({ s with escaped := true }, none)
  else if b = frameStart ∧ 0 < s.index then
    let bytes ← set s.bytes 0 frameStart
    return (⟨bytes, 1, false⟩, none)
  else if b = frameEnd then
    if ← s.opened then
      let frame ← s.frame
      return (⟨s.bytes, 0, false⟩, some frame)
    else return (← s.store b, none)
  else return (← s.store b, none)

theorem Buffer.store_eq (hk : k < addressSpace) (s : Assembler k) (b : UInt8) :
    (ofAssembler s).store b = .ok (ofAssembler (s.store b)) := by
  have hlt : s.index < s.buffer.toList.length := by
    rw [Vector.length_toList]
    exact s.index_lt
  have hspace : s.index + 1 < addressSpace := Nat.lt_of_le_of_lt s.index_lt hk
  have hset : (s.buffer.set s.index b s.index_lt).toList = s.buffer.toList.set s.index b :=
    Vector.toList_set s.index_lt
  rw [Buffer.store, ofAssembler, set_ok hlt, Assembler.store]
  show (add s.index 1 >>= _) = _
  rw [add_ok hspace]
  show Except.ok _ = _
  rw [List.length_set, Vector.length_toList]
  by_cases hfull : s.index + 1 < k
  · rw [dif_pos hfull, if_neg (Nat.ne_of_lt hfull), ofAssembler, hset]
  · have heq : s.index + 1 = k := Nat.le_antisymm s.index_lt (Nat.not_lt.1 hfull)
    rw [dif_neg hfull, if_pos heq, ofAssembler, hset]

theorem Buffer.frame_eq (s : Assembler k) : (ofAssembler s).frame = .ok s.frame := by
  have hlen : s.buffer.toList.length = k := s.buffer.length_toList
  have hlt := s.index_lt
  unfold Buffer.frame Assembler.frame Assembler.collected ofAssembler
  simp only
  match hbytes : s.buffer.toList, hindex : s.index with
  | [], 0 => rfl
  | [], 1 => rfl
  | [], index + 2 => rw [hbytes] at hlen; simp at hlen; omega
  | [_], 0 => rfl
  | [_], 1 => rfl
  | [_], index + 2 => rw [hbytes] at hlen; simp at hlen; omega
  | _ :: _ :: _, 0 => rfl
  | _ :: _ :: _, 1 => rfl
  | first :: opcode :: rest, index + 2 =>
    rw [hbytes] at hlen
    rw [if_neg (by omega), get_ok (by simp), slice_ok (by omega) (by omega)]
    rfl

theorem Buffer.opened_eq (s : Assembler k) (hk : 0 < k) :
    (ofAssembler s).opened = .ok (decide (0 < s.index ∧ s.buffer[0] = frameStart)) := by
  have hpos : 0 < s.buffer.toList.length := by
    rw [Vector.length_toList]
    exact hk
  rw [Buffer.opened, index_ofAssembler, bytes_ofAssembler]
  by_cases h : 0 < s.index
  · rw [if_pos h, get_ok hpos]
    simp only [h, true_and, Vector.getElem_toList]
    rfl
  · rw [if_neg h]
    simp only [h, false_and, decide_false]

/-- A buffer that belongs to an assembler takes a byte without a trap. -/
theorem Buffer.feed_eq (hk : k < addressSpace) (s : Assembler k) (b : UInt8) :
    (ofAssembler s).feed b = .ok (ofAssembler (s.feed b).1, (s.feed b).2) := by
  have hroom : 0 < k := Nat.zero_lt_of_lt s.index_lt
  have hpos : 0 < s.buffer.toList.length := by
    rw [Vector.length_toList]
    exact hroom
  rw [Buffer.feed, Buffer.store_eq hk, Buffer.opened_eq s hroom, Buffer.frame_eq, bytes_ofAssembler,
    set_ok hpos, escaped_ofAssembler, index_ofAssembler, Assembler.feed]
  by_cases hescaped : s.escaped = true
  · rw [if_pos hescaped, if_pos hescaped]
    rfl
  rw [if_neg hescaped, if_neg hescaped]
  by_cases hescape : b = frameEscape
  · rw [if_pos hescape, if_pos hescape]
    rfl
  rw [if_neg hescape, if_neg hescape]
  by_cases hstart : b = frameStart ∧ 0 < s.index
  · rw [if_pos hstart, dif_pos hstart]
    simp only [ofAssembler, Vector.toList_set]
    rfl
  rw [if_neg hstart, dif_neg hstart]
  by_cases hend : b = frameEnd
  · rw [if_pos hend]
    by_cases hopened : 0 < s.index ∧ s.buffer[0] = frameStart
    · rw [if_pos ⟨hend, hopened⟩, decide_eq_true hopened]
      rfl
    · rw [if_neg fun h => hopened h.2, decide_eq_false hopened]
      rfl
  · rw [if_neg hend, if_neg fun h => hend h.1]
    rfl

/-! ## Requests -/

def parseData (payload : Bytes) : Except Trap (Option Request) :=
  if payload.length ≤ dataHeaderLen then .ok none
  else do
    let len ← get payload 0
    let a ← get payload 1
    let b ← get payload 2
    let c ← get payload 3
    let rest ← slice payload dataHeaderLen payload.length
    if len.toNat ≤ rest.length then
      return some (.data (Bytes.toNat [a, b, c]) (rest.take len.toNat))
    else return none

/-- Reads a request. The payloads of the other commands are only compared in length. -/
def parse (opcode : UInt8) (payload : Bytes) : Except Trap (Option Request) :=
  match Opcode.ofByte? opcode with
  | some .data => parseData payload
  | _ => .ok (Request.parse? opcode payload)

theorem parseData_eq (payload : Bytes) : parseData payload = .ok (Request.parseData? payload) := by
  match payload with
  | [] => rfl
  | [_] => rfl
  | [_, _] => rfl
  | [_, _, _] => rfl
  | [_, _, _, _] => rfl
  | len :: a :: b :: c :: first :: rest =>
    have hlong : 4 < (len :: a :: b :: c :: first :: rest).length := by
      simp only [List.length_cons]
      omega
    rw [parseData, if_neg (Nat.not_le.2 hlong), get_ok (by omega), get_ok (by omega),
      get_ok (by omega), get_ok (by omega), slice_ok (Nat.le_of_lt hlong) (Nat.le_refl _),
      Request.parseData?, List.take_length]
    show (if len.toNat ≤ (first :: rest).length then _ else _) = _
    split <;> rfl

theorem parse_eq (opcode : UInt8) (payload : Bytes) :
    parse opcode payload = .ok (Request.parse? opcode payload) := by
  unfold parse Request.parse?
  rcases hopcode : Opcode.ofByte? opcode with _ | opcode
  · rfl
  · cases opcode with
    | data => exact parseData_eq payload
    | size => rfl
    | signature => rfl
    | stop => rfl

/-- A memory operation whose failure refuses the request. -/
def refuse {α : Type} (x : Attempt (Nor n) (Crash Fault) α) : Attempt (Nor n) (Crash Refusal) α :=
  x.mapError fun
    | .trap t => .trap t
    | .error fault => .error (.storage fault)

theorem refuse_safe {α : Type} (x : Action n α) : refuse (safe x) = safe (orRefuse x) := by
  refine Attempt.eq_of_run fun m => ?_
  rcases hx : x.run m with ⟨fault | a, m'⟩
  · rw [refuse, Attempt.run_mapError_error (run_safe_error hx), orRefuse,
      run_safe_error (Attempt.run_mapError_error hx)]
  · rw [refuse, Attempt.run_mapError_ok (run_safe_ok hx), orRefuse,
      run_safe_ok (Attempt.run_mapError_ok hx)]

def programChunk (addr : Nat) (chunk : Bytes) : Attempt (Nor n) (Crash Refusal) Unit := do
  let top ← checked (add addr chunk.length)
  if signatureField ≤ top then .fail (.error .deniedAddress)
  else if addr = 0 then do
    let word ← checked (slice chunk 0 (min chunk.length vectorLen))
    refuse (program entry word)
    if 2 * vectorLen < chunk.length then
      refuse (program (2 * vectorLen) (chunk.drop (2 * vectorLen)))
  else refuse (program addr chunk)

def execute : Request → Attempt (Nor n) (Crash Refusal) Reaction
  | .size field => do
    refuse (program sizeField field.toList)
    return .proceed
  | .signature field => do
    refuse (program signatureField field.toList)
    return .proceed
  | .data addr chunk => do
    programChunk addr chunk
    return .proceed
  | .stop => return .restart

def handle (opcode : UInt8) (payload : Bytes) : Attempt (Nor n) (Crash Refusal) Reaction := do
  match ← checked (parse opcode payload) with
  | none => .fail (.error .invalidPayload)
  | some request => execute request

def handleFrame (frame : Frame) : Attempt (Nor n) (Crash Refusal) Reaction :=
  match frame.opcode with
  | none => return .proceed
  | some opcode => handle opcode frame.payload

theorem programChunk_eq {addr : Nat} {chunk : Bytes} (h : addr + chunk.length < addressSpace) :
    (programChunk addr chunk : Attempt (Nor n) (Crash Refusal) Unit) =
      safe (Device.programChunk addr chunk) := by
  rw [programChunk, Device.programChunk, add_ok h, checked_ok, pure_bind, if_neg (Nat.not_le.2 h)]
  by_cases hdenied : signatureField ≤ addr + chunk.length
  · rw [if_pos hdenied, if_pos hdenied]
    rfl
  rw [if_neg hdenied, if_neg hdenied]
  by_cases h0 : addr = 0
  · have hword : entry + (chunk.take vectorLen).length < addressSpace := by
      have hspace : 4 + 4 < addressSpace := by decide
      rw [List.length_take]
      simp only [entry, vectorLen]
      omega
    have htail : (if 2 * vectorLen < chunk.length then
        refuse (program (2 * vectorLen) (chunk.drop (2 * vectorLen)))
        else pure () : Attempt (Nor n) (Crash Refusal) Unit) =
        safe (orRefuse (Flash.program (2 * vectorLen) (chunk.drop (2 * vectorLen)))) := by
      by_cases hlong : 2 * vectorLen < chunk.length
      · have hspace : 2 * vectorLen + (chunk.drop (2 * vectorLen)).length < addressSpace := by
          rw [List.length_drop]
          omega
        rw [if_pos hlong, program_eq hspace, refuse_safe]
      · rw [if_neg hlong, List.drop_of_length_le (Nat.not_lt.1 hlong), Flash.program, segments_nil]
        rfl
    rw [if_pos h0, if_pos h0, slice_ok (Nat.zero_le _) (Nat.min_le_left _ _), checked_ok, pure_bind,
      List.drop_zero, safe_bind, ← refuse_safe, ← program_eq hword, htail, Nat.min_comm,
      ← List.take_take, List.take_length]
  · rw [if_neg h0, if_neg h0, program_eq h, refuse_safe]

/-- A request is executed without a trap, if its data ends inside the address space. -/
theorem execute_eq {r : Request}
    (h : ∀ addr chunk, r = .data addr chunk → addr + chunk.length < addressSpace) :
    (execute r : Attempt (Nor n) (Crash Refusal) Reaction) = safe (Device.execute r) := by
  cases r with
  | size field =>
    rw [execute, Device.execute, safe_bind, ← refuse_safe,
      ← program_eq (by rw [Vector.length_toList]; decide)]
    rfl
  | signature field =>
    rw [execute, Device.execute, safe_bind, ← refuse_safe,
      ← program_eq (by rw [Vector.length_toList]; decide)]
    rfl
  | data addr chunk =>
    rw [execute, Device.execute, safe_bind, programChunk_eq (h addr chunk rfl)]
    rfl
  | stop => rfl

/-- Whatever a frame holds, it is handled without a trap. -/
theorem handleFrame_eq (frame : Frame) :
    (handleFrame frame : Attempt (Nor n) (Crash Refusal) Reaction) =
      safe (Device.handleFrame frame) := by
  obtain ⟨_ | opcode, payload⟩ := frame
  · rfl
  rw [handleFrame, Device.handleFrame]
  simp only [handle, Device.handle, parse_eq, checked_ok, pure_bind]
  rcases hparse : Request.parse? opcode payload with _ | r
  · rfl
  · refine execute_eq fun addr chunk heq => ?_
    subst heq
    obtain ⟨haddr, hlen⟩ := Request.bounds_of_parse? hparse
    have hspace : maxAddress + 256 < addressSpace := by decide
    omega

end SignedBoot.Device.Trapping
