import Mathlib.Data.List.Basic
import Mathlib.Tactic.Common
import SignedBoot.Proofs.Flash.Commands

/-!
# Programming runs of bytes

A run of bytes is programmed in segments, one for each block it touches. All segments together
change the cells like one command for the whole run would, and each of them stays inside the run, so
nothing outside is changed whenever the power goes.
-/

namespace SignedBoot.Flash

open Layout

variable {n : Nat}

/-! ## Single bytes -/

/-- An erased byte takes on whatever is programmed into it. -/
@[simp]
theorem erased_and (b : UInt8) : erased &&& b = b := by
  rw [← UInt8.toBitVec_inj, UInt8.toBitVec_and]
  exact BitVec.allOnes_and

/-- Programming erased bytes changes nothing. -/
@[simp]
theorem and_erased (b : UInt8) : b &&& erased = b := by
  rw [← UInt8.toBitVec_inj, UInt8.toBitVec_and]
  exact BitVec.and_allOnes

/-! ## Stretches of memory -/

theorem Nor.length_slice (m : Nor n) {addr len : Nat} (h : addr + len ≤ n) :
    (m.slice addr len).length = len := by
  simp only [slice, Array.length_toList, Array.size_extract, Vector.size_toArray]
  omega

theorem Nor.getElem_slice (m : Nor n) {addr len i : Nat} (hi : i < (m.slice addr len).length)
    (hn : addr + i < n) : (m.slice addr len)[i] = m.cells[addr + i] := by
  simp [slice]

/-- A stretch of memory holds the bytes that its cells hold. -/
theorem Nor.slice_eq_iff (m : Nor n) {addr : Nat} {bs : Bytes} (h : addr + bs.length ≤ n) :
    m.slice addr bs.length = bs ↔ ∀ i (hi : i < bs.length), m.cells[addr + i] = bs[i] := by
  constructor
  · intro heq i hi
    have hslice : i < (m.slice addr bs.length).length := by rw [m.length_slice h]; exact hi
    rw [← m.getElem_slice hslice]
    simp only [heq]
  · intro hcells
    refine List.ext_getElem (m.length_slice h) fun i h1 h2 => ?_
    rw [m.getElem_slice h1 (by omega), hcells i h2]

theorem Nor.getElem?_slice (m : Nor n) (addr len i : Nat) :
    (m.slice addr len)[i]? = if i < len then m.cells[addr + i]? else none := by
  simp only [slice, Array.getElem?_toList, Array.getElem?_extract, Vector.size_toArray,
    Vector.getElem?_toArray]
  by_cases hi : i < len
  · by_cases hn : addr + i < n
    · rw [if_pos (by omega), if_pos hi]
    · rw [if_neg (by omega), if_pos hi, Vector.getElem?_eq_none (by omega)]
  · rw [if_neg (by omega), if_neg hi]

/-- Two memories hold the same bytes in a stretch exactly if their cells agree there. -/
theorem Nor.slice_eq_slice_iff {m m' : Nor n} {addr len : Nat} :
    m.slice addr len = m'.slice addr len ↔
      ∀ i (hi : i < n), addr ≤ i → i < addr + len → m.cells[i] = m'.cells[i] := by
  constructor
  · intro heq i hi hge hlt
    have hback : addr + (i - addr) = i := by omega
    have hcell : (m.slice addr len)[i - addr]? = (m'.slice addr len)[i - addr]? := by rw [heq]
    rw [m.getElem?_slice, m'.getElem?_slice, if_pos (by omega), if_pos (by omega), hback,
      Vector.getElem?_eq_getElem hi, Vector.getElem?_eq_getElem hi] at hcell
    exact Option.some.inj hcell
  · intro hcells
    refine List.ext_getElem? fun i => ?_
    rw [m.getElem?_slice, m'.getElem?_slice]
    by_cases hlt : i < len
    · rw [if_pos hlt, if_pos hlt]
      by_cases hn : addr + i < n
      · rw [Vector.getElem?_eq_getElem hn, Vector.getElem?_eq_getElem hn,
          hcells _ hn (by omega) (by omega)]
      · rw [Vector.getElem?_eq_none (by omega), Vector.getElem?_eq_none (by omega)]
    · rw [if_neg hlt, if_neg hlt]

theorem Nor.read_eq_ok (m : Nor n) {addr len : Nat} (h : addr + len ≤ n) :
    m.read addr len = .ok (m.slice addr len) :=
  if_pos h

/-! ## Programming cells -/

theorem getElem_programCells_of_not_mem {cells : Vector UInt8 n} {addr : Nat} {bs : Bytes} {i : Nat}
    (hi : i < n) (h : i < addr ∨ addr + bs.length ≤ i) :
    (Nor.programCells cells addr bs)[i] = cells[i] := by
  rw [Nor.getElem_programCells, dif_neg (by omega)]

theorem getElem_programCells_of_mem {cells : Vector UInt8 n} {addr : Nat} {bs : Bytes} {i : Nat}
    (hi : addr + i < n) (h : i < bs.length) :
    (Nor.programCells cells addr bs)[addr + i] = cells[addr + i] &&& bs[i] := by
  have hmem : addr ≤ addr + i ∧ addr + i < addr + bs.length := by omega
  rw [Nor.getElem_programCells, dif_pos hmem]
  simp only [Nat.add_sub_cancel_left]

/-- Two adjacent runs are programmed like their concatenation. -/
theorem programCells_append (cells : Vector UInt8 n) (addr : Nat) (xs ys : Bytes) :
    Nor.programCells (Nor.programCells cells addr xs) (addr + xs.length) ys =
      Nor.programCells cells addr (xs ++ ys) := by
  induction xs generalizing cells addr with
  | nil => rfl
  | cons x xs ih =>
    rw [List.cons_append, Nor.programCells, Nor.programCells]
    by_cases h : addr < n
    · have hlen : addr + (x :: xs).length = addr + 1 + xs.length := by
        rw [List.length_cons]
        omega
      rw [dif_pos h, dif_pos h, hlen, ih]
    · rw [dif_neg h, dif_neg h]
      cases ys with
      | nil => rfl
      | cons y ys => rw [Nor.programCells, dif_neg (by omega)]

/-- A run can be cut anywhere and its parts programmed one after the other. -/
theorem programCells_take_drop (cells : Vector UInt8 n) (addr k : Nat) (bs : Bytes) :
    Nor.programCells (Nor.programCells cells addr (bs.take k)) (addr + k) (bs.drop k) =
      Nor.programCells cells addr bs := by
  by_cases h : k ≤ bs.length
  · have hlen : (bs.take k).length = k := List.length_take_of_le h
    have hjoin := programCells_append cells addr (bs.take k) (bs.drop k)
    rw [hlen, List.take_append_drop] at hjoin
    exact hjoin
  · rw [List.drop_of_length_le (by omega), List.take_of_length_le (by omega)]
    rfl

/-- A memory that is erased but for a reset vector. -/
def Nor.vectorOnly (n : Nat) (vector : Bytes) : Nor n :=
  { Nor.blank n with cells := Nor.programCells (Nor.blank n).cells 0 vector }

theorem Nor.getElem_vectorOnly {vector : Bytes} {i : Nat} (hi : i < n) (hv : i < vector.length) :
    (Nor.vectorOnly n vector).cells[i] = vector[i] := by
  have hcell : (Nor.programCells (Nor.blank n).cells 0 vector)[0 + i] =
      (Nor.blank n).cells[0 + i] &&& vector[i] := getElem_programCells_of_mem (by omega) hv
  have hblank : (Nor.blank n).cells[i] = erased := Vector.getElem_replicate hi
  simp only [Nat.zero_add, hblank, erased_and] at hcell
  exact hcell

/-- The change that programs a run of bytes at an address. -/
def programChange (w : Nat × Bytes) : Change n :=
  fun cells => Nor.programCells cells w.1 w.2

/-- The changes that program runs of bytes one after the other. -/
def programChanges (ws : List (Nat × Bytes)) : List (Change n) :=
  ws.map programChange

theorem programChanges_append (xs ys : List (Nat × Bytes)) :
    (programChanges (xs ++ ys) : List (Change n)) = programChanges xs ++ programChanges ys :=
  List.map_append

/-- Runs that miss a cell leave it alone, whatever they hold. -/
theorem getElem_applyAll_programChanges {ws : List (Nat × Bytes)} {i : Nat} (hi : i < n)
    (h : ∀ w ∈ ws, i < w.1 ∨ w.1 + w.2.length ≤ i) (cells : Vector UInt8 n) :
    (applyAll (programChanges ws) cells)[i] = cells[i] := by
  refine getElem_applyAll hi (fun change hm cells => ?_) cells
  obtain ⟨w, hw, rfl⟩ := List.mem_map.1 hm
  exact getElem_programCells_of_not_mem hi (h w hw)

/-- Every bit that is set afterwards was set before. -/
def Clears (cells cells' : Vector UInt8 n) : Prop :=
  ∀ i (hi : i < n), cells'[i] &&& cells[i] = cells'[i]

theorem Clears.refl (cells : Vector UInt8 n) : Clears cells cells :=
  fun _ _ => UInt8.and_self

theorem Clears.trans {a b c : Vector UInt8 n} (hab : Clears a b) (hbc : Clears b c) :
    Clears a c := by
  intro i hi
  rw [← hbc i hi, UInt8.and_assoc, hab i hi]

/-- A cell that ends as it began never changed in between. -/
theorem Clears.eq_of_eq {before between after : Vector UInt8 n} (hfirst : Clears before between)
    (hsecond : Clears between after) {i : Nat} (hi : i < n) (h : after[i] = before[i]) :
    between[i] = before[i] := by
  have hbetween := hfirst i hi
  have hafter := hsecond i hi
  rw [h, UInt8.and_comm] at hafter
  exact hbetween.symm.trans hafter

theorem clears_programChange (w : Nat × Bytes) (cells : Vector UInt8 n) :
    Clears cells (programChange w cells) := by
  intro i hi
  rw [programChange, Nor.getElem_programCells]
  split
  · rw [UInt8.and_assoc, UInt8.and_comm _ cells[i], ← UInt8.and_assoc, UInt8.and_self]
  · exact UInt8.and_self

theorem clears_applyAll_programChanges (ws : List (Nat × Bytes)) (cells : Vector UInt8 n) :
    Clears cells (applyAll (programChanges ws) cells) := by
  refine applyAll_preserves (P := Clears cells) (fun change hm c hc => ?_) (Clears.refl cells)
  obtain ⟨w, -, rfl⟩ := List.mem_map.1 hm
  exact hc.trans (clears_programChange w c)

/-! ## Runs of bytes in the cells -/

/-- The cells from `addr` on hold the given bytes. -/
def StoredAt (bs : Bytes) (addr : Nat) (cells : Vector UInt8 n) : Prop :=
  ∀ i (hi : i < bs.length) (hn : addr + i < n), cells[addr + i] = bs[i]

theorem StoredAt.getElem {bs : Bytes} {addr : Nat} {cells : Vector UInt8 n}
    (h : StoredAt bs addr cells) {i : Nat} (hi : i < n) (hge : addr ≤ i) (hlt : i - addr < bs.length) :
    cells[i] = bs[i - addr] := by
  obtain ⟨k, rfl⟩ := Nat.exists_eq_add_of_le hge
  have hk : addr + k - addr = k := Nat.add_sub_cancel_left addr k
  simp only [hk] at hlt ⊢
  exact h k hlt hi

theorem storedAt_iff_slice {m : Nor n} {bs : Bytes} {addr : Nat} (h : addr + bs.length ≤ n) :
    StoredAt bs addr m.cells ↔ m.slice addr bs.length = bs := by
  rw [m.slice_eq_iff h]
  constructor
  · exact fun hs i hi => hs i hi (by omega)
  · exact fun hs i hi _ => hs i hi

/-- A change that touches none of the cells keeps what is stored in them. -/
theorem StoredAt.of_unchanged {bs : Bytes} {addr : Nat} {cells cells' : Vector UInt8 n}
    (h : StoredAt bs addr cells)
    (hsame : ∀ i (hi : i < n), addr ≤ i → i < addr + bs.length → cells'[i] = cells[i]) :
    StoredAt bs addr cells' := by
  intro i hi hn
  rw [hsame _ hn (by omega) (by omega)]
  exact h i hi hn

theorem StoredAt.unique {xs ys : Bytes} {addr : Nat} {cells : Vector UInt8 n}
    (hx : StoredAt xs addr cells) (hy : StoredAt ys addr cells) (hlen : xs.length = ys.length)
    (hn : addr + xs.length ≤ n) : xs = ys := by
  refine List.ext_getElem hlen fun i h1 h2 => ?_
  rw [← hx i h1 (by omega), ← hy i h2 (by omega)]

theorem storedAt_programCells {bs : Bytes} {addr : Nat} {cells : Vector UInt8 n}
    (h : ∀ i (hi : i < n), addr ≤ i → i < addr + bs.length → cells[i] = erased) :
    StoredAt bs addr (Nor.programCells cells addr bs) := by
  intro i hi hn
  rw [getElem_programCells_of_mem hn hi, h _ hn (by omega) (by omega), erased_and]

/-- Two runs share no cell. -/
def Apart (v w : Nat × Bytes) : Prop :=
  v.1 + v.2.length ≤ w.1 ∨ w.1 + w.2.length ≤ v.1

/-- Runs apart from each other are all stored, if their cells were erased. -/
theorem storedAt_applyAll_programChanges {ws : List (Nat × Bytes)} (hapart : ws.Pairwise Apart)
    {w : Nat × Bytes} (hw : w ∈ ws) {cells : Vector UInt8 n}
    (h : ∀ i (hi : i < n), w.1 ≤ i → i < w.1 + w.2.length → cells[i] = erased) :
    StoredAt w.2 w.1 (applyAll (programChanges ws) cells) := by
  induction ws generalizing cells with
  | nil => cases hw
  | cons v ws ih =>
    obtain ⟨hhead, htail⟩ := List.pairwise_cons.1 hapart
    have hfirst : applyAll (programChanges (v :: ws)) cells =
        applyAll (programChanges ws) (programChange v cells) := rfl
    rw [hfirst]
    rcases List.mem_cons.1 hw with rfl | hw
    · have hput : StoredAt w.2 w.1 (programChange w cells) := storedAt_programCells h
      refine hput.of_unchanged fun i hi hge hlt => ?_
      refine getElem_applyAll_programChanges hi (fun u hu => ?_) _
      have hu' : w.1 + w.2.length ≤ u.1 ∨ u.1 + u.2.length ≤ w.1 := hhead u hu
      omega
    · refine ih htail hw fun i hi hge hlt => ?_
      have hw' : v.1 + v.2.length ≤ w.1 ∨ w.1 + w.2.length ≤ v.1 := hhead w hw
      have hsame : (programChange v cells)[i] = cells[i] :=
        getElem_programCells_of_not_mem hi (by omega)
      rw [hsame]
      exact h i hi hge hlt

/-! ## Segments -/

theorem segments_nil (addr : Nat) : segments addr [] = [] := by
  rw [segments]

/-- A run that fits into the rest of its block is one segment. -/
theorem segments_of_fits {addr : Nat} {bs : Bytes} (hne : bs ≠ [])
    (h : addr % blockSize + bs.length ≤ blockSize) : segments addr bs = [(addr, bs)] := by
  obtain ⟨b, bs, rfl⟩ := List.exists_cons_of_ne_nil hne
  have hroom : (b :: bs).length ≤ blockSize - addr % blockSize := by omega
  rw [segments]
  simp only [List.take_of_length_le hroom, List.drop_of_length_le hroom, segments_nil]

theorem length_segments_le (addr : Nat) (bs : Bytes) : (segments addr bs).length ≤ bs.length := by
  fun_induction segments addr bs with
  | case1 addr => exact Nat.le_refl 0
  | case2 addr b bs room ih =>
    have hroom : 0 < room := Nat.sub_pos_of_lt (Nat.mod_lt _ (by decide))
    rw [List.length_drop] at ih
    rw [List.length_cons, List.length_cons]
    rw [List.length_cons] at ih
    omega

/-- Every segment holds the bytes of the run from some place on. -/
theorem exists_of_mem_segments {addr : Nat} {bs : Bytes} {w : Nat × Bytes}
    (hw : w ∈ segments addr bs) :
    ∃ k, k ≤ bs.length ∧ w.1 = addr + k ∧ w.2 <+: bs.drop k := by
  fun_induction segments addr bs with
  | case1 addr => cases hw
  | case2 addr b bs room ih =>
    rcases List.mem_cons.1 hw with rfl | hw
    · exact ⟨0, Nat.zero_le _, rfl, List.take_prefix _ _⟩
    · obtain ⟨k, hle, hk, hpiece⟩ := ih hw
      by_cases hroom : room ≤ (b :: bs).length
      · refine ⟨room + k, ?_, ?_, ?_⟩
        · rw [List.length_drop] at hle
          omega
        · rw [hk, List.length_take, Nat.min_eq_left hroom, Nat.add_assoc]
        · rw [List.drop_drop] at hpiece
          exact hpiece
      · rw [List.drop_of_length_le (by omega), segments_nil] at hw
        cases hw

theorem mem_segments {addr : Nat} {bs : Bytes} {w : Nat × Bytes} (hw : w ∈ segments addr bs) :
    addr ≤ w.1 ∧ w.1 + w.2.length ≤ addr + bs.length := by
  obtain ⟨k, hle, hk, hpiece⟩ := exists_of_mem_segments hw
  have hlen := hpiece.length_le
  rw [List.length_drop] at hlen
  omega

/-- The segments laid end to end are the run. -/
theorem flatMap_segments (addr : Nat) (bs : Bytes) : (segments addr bs).flatMap Prod.snd = bs := by
  fun_induction segments addr bs with
  | case1 addr => rfl
  | case2 addr b bs room ih => rw [List.flatMap_cons, ih, List.take_append_drop]

/-- The first segments of a run change the cells like the front part of the run that they make up. -/
theorem applyAll_front_of_segments {addr : Nat} {bs : Bytes} {before rest : List (Nat × Bytes)}
    (h : segments addr bs = before ++ rest) (cells : Vector UInt8 n) :
    applyAll (programChanges before) cells =
      Nor.programCells cells addr (before.flatMap Prod.snd) := by
  induction before generalizing addr bs cells with
  | nil => rfl
  | cons part before ih =>
    rcases bs with _ | ⟨b, bs⟩
    · rw [segments_nil] at h
      cases h
    rw [segments, List.cons_append, List.cons.injEq] at h
    obtain ⟨rfl, hrest⟩ := h
    rw [List.flatMap_cons]
    exact (ih hrest (programChange (addr, _) cells)).trans (programCells_append cells addr _ _)

/-- All segments together change the cells like the whole run at once. -/
theorem applyAll_segments (addr : Nat) (bs : Bytes) (cells : Vector UInt8 n) :
    applyAll (programChanges (segments addr bs)) cells = Nor.programCells cells addr bs := by
  have hall := applyAll_front_of_segments (List.append_nil (segments addr bs)).symm cells
  rwa [flatMap_segments] at hall

theorem run_commit (w : Nat × Bytes) (m : Nor n) :
    (commit w).run m =
      if n < w.1 + w.2.length then (.error .outOfBounds, m)
      else if m.power = some 0 then (.error .powerLoss, m)
      else if addressSpace ≤ w.1 + w.2.length then
        (.error .addressOverflow, m.after [programChange w])
      else (.ok (), m.after [programChange w]) := by
  by_cases hn : n < w.1 + w.2.length
  · rw [if_pos hn, commit, write, if_pos hn]
    rfl
  have hwrite : (write w.1 w.2 : Action n Unit) = command (programChange w) := by
    rw [write, if_neg hn]
    rfl
  rw [if_neg hn, commit, hwrite]
  by_cases hpower : m.power = some 0
  · have hcut : (command (programChange w)).run m = (.error .powerLoss, m) := by
      rw [run_command, if_pos hpower]
    rw [if_pos hpower, Attempt.run_bind_error hcut]
  · have hdone : (command (programChange w)).run m = (.ok (), m.after [programChange w]) := by
      rw [run_command, if_neg hpower]
    rw [if_neg hpower, Attempt.run_bind_ok hdone, Attempt.run_ite]
    rfl

/-- Committing runs stops somewhere, and has then done what the runs up to there do. -/
theorem exists_prefix_of_forM_commit (ws : List (Nat × Bytes)) (m : Nor n) :
    ∃ done, done <+: ws ∧ ((ws.forM commit).run m).2 = m.after (programChanges done) := by
  induction ws generalizing m with
  | nil => exact ⟨[], List.prefix_rfl, m.after_nil.symm⟩
  | cons w ws ih =>
    have hcons : ((w :: ws).forM commit : Action n Unit) =
        (commit w >>= fun _ => ws.forM commit) := rfl
    rw [hcons]
    rcases hw : (commit w).run m with ⟨e | ⟨⟩, m'⟩
    · rw [Attempt.run_bind_error hw]
      rw [run_commit] at hw
      split_ifs at hw <;> cases hw
      · exact ⟨[], List.nil_prefix, m.after_nil.symm⟩
      · exact ⟨[], List.nil_prefix, m.after_nil.symm⟩
      · exact ⟨[w], List.prefix_append [w] ws, rfl⟩
    · rw [Attempt.run_bind_ok hw]
      rw [run_commit] at hw
      split_ifs at hw <;> cases hw
      obtain ⟨done, hdone, heq⟩ := ih (m.after [programChange w])
      refine ⟨w :: done, List.cons_prefix_cons.2 ⟨rfl, hdone⟩, ?_⟩
      exact heq.trans (m.after_append [programChange w] (programChanges done)).symm

theorem commit_eq_command {w : Nat × Bytes} (hn : w.1 + w.2.length ≤ n)
    (hspace : w.1 + w.2.length < addressSpace) :
    (commit w : Action n Unit) = command (programChange w) := by
  refine Attempt.eq_of_run fun m => ?_
  rw [run_commit, run_command, if_neg (Nat.not_lt.2 hn), if_neg (Nat.not_le.2 hspace)]

/-- Runs in bounds are committed by one command each. -/
theorem forM_commit_eq_commands {ws : List (Nat × Bytes)}
    (h : ∀ w ∈ ws, w.1 + w.2.length ≤ n ∧ w.1 + w.2.length < addressSpace) :
    (ws.forM commit : Action n Unit) = commands (programChanges ws) := by
  induction ws with
  | nil => rfl
  | cons w ws ih =>
    obtain ⟨hn, hspace⟩ := h w List.mem_cons_self
    have hrest := ih fun w' hw' => h w' (List.mem_cons_of_mem _ hw')
    calc (w :: ws).forM commit = (commit w >>= fun _ => ws.forM commit) := rfl
      _ = command (programChange w) >>= fun _ => commands (programChanges ws) := by
        rw [hrest, commit_eq_command hn hspace]

end SignedBoot.Flash
