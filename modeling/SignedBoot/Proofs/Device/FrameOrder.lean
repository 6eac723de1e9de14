import Mathlib.Data.List.Basic
import Mathlib.Tactic.Common
import SignedBoot.Proofs.Device.RequestEffects

/-!
# Frames in any order

A frame that is accepted programs at most one data byte into a cell, and programming keeps of a cell
what the data byte keeps. So after a list of accepted frames a cell holds what it held before, and-ed
with every data byte that any of the frames had for it. In what order the bytes came, and how often
each of them, makes no difference to that.
-/

namespace SignedBoot.Device

open Flash Layout Wire

variable {n : Nat}

/-! ## The data bytes of a cell -/

/-- The byte of a run at `addr` that belongs to a cell. -/
def runByte (addr : Nat) (bs : Bytes) (i : Nat) : Option UInt8 :=
  if addr ≤ i then bs[i - addr]? else none

/-- The data byte that a request has for a cell. The first word of a chunk for address 0 belongs to
the cells at `entry`, its second word to none. -/
def dataByte? : Request → Nat → Option UInt8
  | .size field, i => runByte sizeField field.toList i
  | .signature field, i => runByte signatureField field.toList i
  | .data addr chunk, i =>
    if addr ≠ 0 then runByte addr chunk i
    else if i < entry then none
    else if i < entry + vectorLen then chunk[i - entry]?
    else chunk[i]?
  | .stop, _ => none

/-- The data bytes that the requests of some frames have for a cell. -/
def dataBytes (frames : List (UInt8 × Bytes)) (i : Nat) : Bytes :=
  frames.filterMap fun f => (Request.parse? f.1 f.2).bind (dataByte? · i)

/-- What is left of a byte when all of some bytes are programmed into it. -/
def andAll (b : UInt8) (ds : Bytes) : UInt8 :=
  ds.foldl (· &&& ·) b

theorem andAll_append (b : UInt8) (xs ys : Bytes) :
    andAll b (xs ++ ys) = andAll (andAll b xs) ys :=
  List.foldl_append

/-- A byte without bits outside of all others has none outside of what is left of them. -/
theorem and_andAll {a b : UInt8} {ds : Bytes} (hb : a &&& b = a) (hds : ∀ d ∈ ds, a &&& d = a) :
    a &&& andAll b ds = a := by
  induction ds generalizing b with
  | nil => exact hb
  | cons d ds ih =>
    refine ih ?_ fun d' hd' => hds d' (List.mem_cons_of_mem d hd')
    rw [← UInt8.and_assoc, hb]
    exact hds d List.mem_cons_self

theorem andAll_and_self (b : UInt8) (ds : Bytes) : andAll b ds &&& b = andAll b ds := by
  induction ds generalizing b with
  | nil => exact UInt8.and_self
  | cons d ds ih =>
    have hrest : andAll (b &&& d) ds &&& (b &&& d) = andAll (b &&& d) ds := ih (b &&& d)
    show andAll (b &&& d) ds &&& b = andAll (b &&& d) ds
    rw [← hrest, UInt8.and_assoc, UInt8.and_comm (b &&& d) b, ← UInt8.and_assoc b b d, UInt8.and_self]

theorem andAll_and_of_mem {b d : UInt8} {ds : Bytes} (h : d ∈ ds) :
    andAll b ds &&& d = andAll b ds := by
  induction ds generalizing b with
  | nil => cases h
  | cons d' ds ih =>
    rcases List.mem_cons.1 h with rfl | h
    · have hself : andAll (b &&& d) ds &&& (b &&& d) = andAll (b &&& d) ds := andAll_and_self _ ds
      show andAll (b &&& d) ds &&& d = andAll (b &&& d) ds
      rw [← hself, UInt8.and_assoc, UInt8.and_assoc, UInt8.and_self]
    · exact ih h

/-- Only which bytes are programmed matters, not their order and not how often each one is. -/
theorem andAll_congr {b : UInt8} {xs ys : Bytes} (h : ∀ d, d ∈ xs ↔ d ∈ ys) :
    andAll b xs = andAll b ys := by
  have hxy : andAll b xs &&& andAll b ys = andAll b xs :=
    and_andAll (andAll_and_self b xs) fun d hd => andAll_and_of_mem ((h d).2 hd)
  have hyx : andAll b ys &&& andAll b xs = andAll b ys :=
    and_andAll (andAll_and_self b ys) fun d hd => andAll_and_of_mem ((h d).1 hd)
  rw [← hxy, UInt8.and_comm, hyx]

theorem dataBytes_congr {frames frames' : List (UInt8 × Bytes)} (h : ∀ f, f ∈ frames ↔ f ∈ frames')
    (i : Nat) (d : UInt8) : d ∈ dataBytes frames i ↔ d ∈ dataBytes frames' i := by
  simp only [dataBytes, List.mem_filterMap, h]

/-! ## What requests do to a cell -/

theorem getElem_programCells_eq (cells : Vector UInt8 n) (addr : Nat) (bs : Bytes) {i : Nat}
    (hi : i < n) :
    (Nor.programCells cells addr bs)[i] = andAll cells[i] (runByte addr bs i).toList := by
  by_cases hmem : addr ≤ i ∧ i < addr + bs.length
  · obtain ⟨k, rfl⟩ := Nat.exists_eq_add_of_le hmem.1
    have hk : k < bs.length := by omega
    rw [getElem_programCells_of_mem hi hk, runByte, if_pos hmem.1, Nat.add_sub_cancel_left,
      List.getElem?_eq_getElem hk]
    rfl
  · have hnone : runByte addr bs i = none := by
      unfold runByte
      split
      · exact List.getElem?_eq_none (by omega)
      · rfl
    rw [getElem_programCells_of_not_mem hi (by omega), hnone]
    rfl

/-- The two runs of a chunk for address 0 have the data byte of a cell between them. -/
theorem toList_dataByte?_zero (chunk : Bytes) (i : Nat) :
    (dataByte? (.data 0 chunk) i).toList = (runByte entry (chunk.take vectorLen) i).toList ++
      (runByte (2 * vectorLen) (chunk.drop (2 * vectorLen)) i).toList := by
  show (if i < 4 then none else if i < 8 then chunk[i - 4]? else chunk[i]?).toList =
    (runByte 4 (chunk.take 4) i).toList ++ (runByte 8 (chunk.drop 8) i).toList
  rw [runByte, runByte, List.getElem?_take, List.getElem?_drop]
  by_cases hlow : i < 4
  · rw [if_pos hlow, if_neg (by omega), if_neg (by omega)]
    rfl
  by_cases hmid : i < 8
  · rw [if_neg hlow, if_pos hmid, if_pos (by omega), if_pos (by omega), if_neg (by omega)]
    exact (List.append_nil _).symm
  · have hback : 8 + (i - 8) = i := by omega
    rw [if_neg hlow, if_neg hmid, if_pos (by omega), if_neg (by omega), if_pos (by omega), hback]
    rfl

/-- The runs of a request program its data byte for a cell into the cell. -/
theorem getElem_applyAll_requestWrites (r : Request) (cells : Vector UInt8 n) {i : Nat} (hi : i < n) :
    (applyAll (programChanges (requestWrites r)) cells)[i] =
      andAll cells[i] (dataByte? r i).toList := by
  cases r with
  | size field =>
    simp only [requestWrites, applyAll_segments]
    exact getElem_programCells_eq cells _ _ hi
  | signature field =>
    simp only [requestWrites, applyAll_segments]
    exact getElem_programCells_eq cells _ _ hi
  | stop => rfl
  | data addr chunk =>
    by_cases h0 : addr = 0
    · subst h0
      have hwrites : requestWrites (.data 0 chunk) = segments entry (chunk.take vectorLen) ++
          segments (2 * vectorLen) (chunk.drop (2 * vectorLen)) := rfl
      rw [hwrites, programChanges_append, applyAll_append, applyAll_segments, applyAll_segments,
        getElem_programCells_eq _ _ _ hi, getElem_programCells_eq _ _ _ hi, toList_dataByte?_zero,
        andAll_append]
    · have hwrites : requestWrites (.data addr chunk) = segments addr chunk := if_neg h0
      have hdata : dataByte? (.data addr chunk) i = runByte addr chunk i := if_pos h0
      rw [hwrites, applyAll_segments, hdata]
      exact getElem_programCells_eq cells addr chunk hi

/-! ## Accepted frames -/

/-- A frame is executed, and the session goes on. -/
def Accepts (m : Nor n) (f : UInt8 × Bytes) : Prop :=
  ((handle f.1 f.2).run m).1 = .ok .proceed

/-- Without a power cut it does not depend on what the memory holds whether a frame is accepted. -/
theorem accepts_iff (hn : loaderBase ≤ n) {m : Nor n} (hpower : m.power = none) (f : UInt8 × Bytes) :
    Accepts m f ↔ ∃ r, Request.parse? f.1 f.2 = some r ∧ ¬ Denied r ∧ reaction r = .proceed := by
  unfold Accepts handle
  rcases hparse : Request.parse? f.1 f.2 with _ | r
  · constructor
    · intro h
      cases h
    · rintro ⟨r, h, -⟩
      cases h
  by_cases hdenied : Denied r
  · obtain ⟨why, hrun⟩ := run_execute_denied hdenied m
    simp only [hrun]
    constructor
    · intro h
      cases h
    · rintro ⟨r', heq, hr', -⟩
      cases heq
      exact absurd hdenied hr'
  · have hbounds : ∀ w ∈ requestWrites r, w.1 + w.2.length ≤ n := fun w hw =>
      Nat.le_trans (le_of_mem_requestWrites hdenied hw) hn
    simp only [run_execute hdenied hbounds, hpower, if_pos (Quota.covers_none _)]
    constructor
    · intro h
      exact ⟨r, rfl, hdenied, Except.ok.inj h⟩
    · rintro ⟨r', heq, -, hproceed⟩
      cases heq
      exact congrArg Except.ok hproceed

/-- An accepted frame programs its data byte for a cell into the cell. -/
theorem getElem_afterFrame (hn : loaderBase ≤ n) {m : Nor n} (hpower : m.power = none)
    {f : UInt8 × Bytes} (h : Accepts m f) {i : Nat} (hi : i < n) :
    (afterFrame m f).cells[i] = andAll m.cells[i] (dataBytes [f] i) := by
  obtain ⟨r, hparse, hdenied, -⟩ := (accepts_iff hn hpower f).1 h
  have hbounds : ∀ w ∈ requestWrites r, w.1 + w.2.length ≤ n := fun w hw =>
    Nat.le_trans (le_of_mem_requestWrites hdenied hw) hn
  have hcells : (afterFrame m f).cells = applyAll (programChanges (requestWrites r)) m.cells := by
    rw [afterFrame_of_some hparse, run_execute hdenied hbounds, hpower]
    rfl
  have hbytes : dataBytes [f] i = (dataByte? r i).toList := by
    rw [dataBytes, List.filterMap_cons, hparse, Option.bind_some]
    rcases dataByte? r i with _ | d <;> rfl
  simp only [hcells, hbytes]
  exact getElem_applyAll_requestWrites r m.cells hi

/-! ## Lists of frames -/

/-- Every frame of a list is accepted when its turn comes. -/
def AcceptsInTurn (m : Nor n) (frames : List (UInt8 × Bytes)) : Prop :=
  ∀ front f, front ++ [f] <+: frames → Accepts (handleAll m front) f

theorem handleAll_append (m : Nor n) (front back : List (UInt8 × Bytes)) :
    handleAll m (front ++ back) = handleAll (handleAll m front) back :=
  List.foldl_append

theorem handleAll_power {m : Nor n} (hpower : m.power = none) (frames : List (UInt8 × Bytes)) :
    (handleAll m frames).power = none := by
  induction frames generalizing m with
  | nil => exact hpower
  | cons f frames ih => exact ih ((clears_afterFrame m f).2 hpower)

/-- Without a power cut the frames of a list are accepted in their turn exactly if each of them would
be accepted at once. -/
theorem acceptsInTurn_iff (hn : loaderBase ≤ n) {m : Nor n} (hpower : m.power = none)
    (frames : List (UInt8 × Bytes)) : AcceptsInTurn m frames ↔ ∀ f ∈ frames, Accepts m f := by
  have hany : ∀ front f, Accepts (handleAll m front) f ↔ Accepts m f := fun front f => by
    rw [accepts_iff hn (handleAll_power hpower front), accepts_iff hn hpower]
  constructor
  · intro h f hf
    obtain ⟨front, back, rfl⟩ := List.append_of_mem hf
    have hfront : front ++ [f] <+: front ++ f :: back := ⟨back, by simp⟩
    exact (hany front f).1 (h front f hfront)
  · intro h front f hfront
    exact (hany front f).2 (h f (hfront.subset (by simp)))

/-- After accepted frames a cell holds what it held before, and-ed with every data byte for it. -/
theorem getElem_handleAll (hn : loaderBase ≤ n) {m : Nor n} (hpower : m.power = none)
    {frames : List (UInt8 × Bytes)} (h : ∀ f ∈ frames, Accepts m f) {i : Nat} (hi : i < n) :
    (handleAll m frames).cells[i] = andAll m.cells[i] (dataBytes frames i) := by
  induction frames generalizing m with
  | nil => rfl
  | cons f frames ih =>
    have hnext : (afterFrame m f).power = none := (clears_afterFrame m f).2 hpower
    have hrest : ∀ g ∈ frames, Accepts (afterFrame m f) g := fun g hg => by
      rw [accepts_iff hn hnext, ← accepts_iff hn hpower]
      exact h g (List.mem_cons_of_mem f hg)
    have hsplit : dataBytes (f :: frames) i = dataBytes [f] i ++ dataBytes frames i :=
      List.filterMap_append (l := [f])
    show (handleAll (afterFrame m f) frames).cells[i] = _
    rw [ih hnext hrest, getElem_afterFrame hn hpower (h f List.mem_cons_self) hi, hsplit,
      andAll_append]

/-- What accepted frames make of a memory is said cell by cell: what was there, and-ed with every data
byte for the cell. So the same frames in another order, or sent more or less often, are accepted too and
make the same of it. And no frame sets a bit. -/
theorem accepted_frames_commute {m : Nor flashSize} (hpower : m.power = none)
    {frames : List (UInt8 × Bytes)} (h : AcceptsInTurn m frames) :
    (∀ i (hi : i < flashSize),
      (handleAll m frames).cells[i] = andAll m.cells[i] (dataBytes frames i)) ∧
    (∀ frames', (∀ f, f ∈ frames' ↔ f ∈ frames) →
      AcceptsInTurn m frames' ∧ (handleAll m frames').cells = (handleAll m frames).cells) ∧
    (∀ front f, front ++ [f] <+: frames →
      Clears (handleAll m front).cells (handleAll m (front ++ [f])).cells) := by
  have hn : loaderBase ≤ flashSize := by decide
  have hall := (acceptsInTurn_iff hn hpower frames).1 h
  refine ⟨fun i hi => getElem_handleAll hn hpower hall hi, ?_, ?_⟩
  · intro frames' hsame
    have hall' : ∀ f ∈ frames', Accepts m f := fun f hf => hall f ((hsame f).1 hf)
    refine ⟨(acceptsInTurn_iff hn hpower frames').2 hall', Vector.ext fun i hi => ?_⟩
    rw [getElem_handleAll hn hpower hall' hi, getElem_handleAll hn hpower hall hi]
    exact andAll_congr (dataBytes_congr hsame i)
  · intro front f _
    rw [handleAll_append]
    exact clears_handleAll (handleAll m front) [f]

/-- Three frames that overlap on a device without an image: the chunk for address 0 has `F0` for the
cell at `entry` and the chunk for that cell has `3C`, so it ends up with `30` in either order. -/
theorem overlapping_frames_commute :
    let m := Nor.blank flashSize
    let frames := [(0x44, [0x01, 0x00, 0x00, 0x00, 0xF0]), (0x44, [0x01, 0x00, 0x00, 0x04, 0x3C]),
      (0x4D, [0x00, 0x00, 0x05])]
    (m.power = none ∧ AcceptsInTurn m frames) ∧ andAll erased (dataBytes frames entry) = 0x30 ∧
      (∀ i (hi : i < flashSize),
        (handleAll m frames).cells[i] = andAll m.cells[i] (dataBytes frames i)) ∧
      (handleAll m (frames.reverse ++ frames)).cells = (handleAll m frames).cells := by
  intro m frames
  have hpower : m.power = none := rfl
  have haccepts : AcceptsInTurn m frames := by
    rw [acceptsInTurn_iff (by decide) hpower]
    intro f hf
    rw [accepts_iff (by decide) hpower]
    rcases List.mem_cons.1 hf with rfl | hf
    · exact ⟨.data 0 [0xF0], by decide, by decide, rfl⟩
    rcases List.mem_cons.1 hf with rfl | hf
    · exact ⟨.data 4 [0x3C], by decide, by decide, rfl⟩
    · rw [List.mem_singleton.1 hf]
      exact ⟨.size #v[0x00, 0x00, 0x05], by decide, by decide, rfl⟩
  obtain ⟨hcells, hcommute, -⟩ := accepted_frames_commute hpower haccepts
  refine ⟨⟨hpower, haccepts⟩, by decide, hcells, (hcommute (frames.reverse ++ frames) fun f => ?_).2⟩
  rw [List.mem_append, List.mem_reverse, or_self]

end SignedBoot.Device
