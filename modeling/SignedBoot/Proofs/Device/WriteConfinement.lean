import Mathlib.Data.List.Basic
import Mathlib.Tactic.Common
import SignedBoot.Proofs.Device.BootDecision
import SignedBoot.Proofs.Device.RequestEffects
import SignedBoot.Proofs.Flash.EraseSequence
import SignedBoot.Proofs.Wire.RequestCodec

/-!
# What the host can reach

Every request owns a region of the memory: an image size owns the size field, a signature the
signature field, and a chunk everything below the last byte in front of the signature record. No
request changes a cell it does not own, wherever it aims and whenever the power goes, and the erase
sequence in front of a session ends below the loader. So the record is only ever changed by the
request made for it, and the loader by nothing.
-/

namespace SignedBoot.Device

open Flash Layout Wire

variable {n k : Nat}

/-! ## Regions -/

/-- The cells that a request may change. -/
def Owns : Request → Nat → Prop
  | .size _, i => sizeField ≤ i ∧ i < loaderBase
  | .signature _, i => signatureField ≤ i ∧ i < sizeField
  | .data _ _, i => i + 1 < signatureField
  | .stop, _ => False

theorem lt_loaderBase_of_owns {r : Request} {i : Nat} (h : Owns r i) : i < loaderBase := by
  cases r with
  | size field => exact h.2
  | signature field =>
    have hlt : i < 0x5FFD := h.2
    show i < 0x6000
    omega
  | data addr chunk =>
    have hlt : i + 1 < 0x5FBD := h
    show i < 0x6000
    omega
  | stop => exact h.elim

theorem owns_of_mem_requestWrites {r : Request} (h : ¬ Denied r) {w : Nat × Bytes}
    (hw : w ∈ requestWrites r) {i : Nat} (hge : w.1 ≤ i) (hlt : i < w.1 + w.2.length) :
    Owns r i := by
  cases r with
  | size field =>
    obtain ⟨hstart, hend⟩ := mem_segments hw
    rw [Vector.length_toList] at hend
    exact ⟨Nat.le_trans hstart hge, Nat.lt_of_lt_of_le hlt hend⟩
  | signature field =>
    obtain ⟨hstart, hend⟩ := mem_segments hw
    rw [Vector.length_toList] at hend
    exact ⟨Nat.le_trans hstart hge, Nat.lt_of_lt_of_le hlt hend⟩
  | data addr chunk =>
    have hchunk : addr + chunk.length < 0x5FBD := Nat.not_le.1 h
    show i + 1 < 0x5FBD
    simp only [requestWrites, chunkWrites] at hw
    split at hw
    · -- the two runs of the first chunk end at 8 and where the chunk ends
      rcases List.mem_append.1 hw with hw | hw
      · have hend := (mem_segments hw).2
        rw [List.length_take] at hend
        simp only [entry, vectorLen] at hend
        omega
      · have hend := (mem_segments hw).2
        rw [List.length_drop] at hend
        simp only [vectorLen] at hend
        omega
    · have hend := (mem_segments hw).2
      omega
  | stop => cases hw

theorem getElem_execute_of_not_owns {r : Request} {m : Nor n} {i : Nat} (hi : i < n)
    (h : ¬ Owns r i) : ((execute r).run m).2.cells[i] = m.cells[i] := by
  by_cases hdenied : Denied r
  · obtain ⟨why, hrun⟩ := run_execute_denied hdenied m
    rw [hrun]
  · obtain ⟨done, hdone, heq⟩ := exists_prefix_of_execute r m
    rw [heq]
    apply getElem_applyAll_programChanges hi
    intro w hw
    by_contra hhit
    exact h (owns_of_mem_requestWrites hdenied (hdone.subset hw) (by omega) (by omega))

/-- A cell that a frame has changed belongs to the request in it. -/
theorem exists_owner {m : Nor n} {f : UInt8 × Bytes} {i : Nat} (hi : i < n)
    (h : (afterFrame m f).cells[i] ≠ m.cells[i]) :
    ∃ r, Request.parse? f.1 f.2 = some r ∧ Owns r i := by
  rcases hparse : Request.parse? f.1 f.2 with _ | r
  · rw [afterFrame_of_none hparse] at h
    exact absurd rfl h
  · refine ⟨r, rfl, ?_⟩
    by_contra hforeign
    rw [afterFrame_of_some hparse, getElem_execute_of_not_owns hi hforeign] at h
    exact absurd rfl h

/-- A cell that a sequence of frames has changed belongs to the request in one of them. -/
theorem exists_owner_of_handleAll {m : Nor n} {frames : List (UInt8 × Bytes)} {i : Nat} (hi : i < n)
    (h : (handleAll m frames).cells[i] ≠ m.cells[i]) :
    ∃ f ∈ frames, ∃ r, Request.parse? f.1 f.2 = some r ∧ Owns r i := by
  induction frames generalizing m with
  | nil => exact absurd rfl h
  | cons f frames ih =>
    by_cases hhead : (afterFrame m f).cells[i] = m.cells[i]
    · have htail : (handleAll (afterFrame m f) frames).cells[i] ≠ (afterFrame m f).cells[i] := by
        rw [hhead]
        exact h
      obtain ⟨g, hg, howner⟩ := ih htail
      exact ⟨g, List.mem_cons_of_mem f hg, howner⟩
    · exact ⟨f, List.mem_cons_self, exists_owner hi hhead⟩

theorem exists_size_of_owner {r : Request} {i : Nat} (h : Owns r i) (hi : sizeField ≤ i) :
    ∃ field, r = .size field := by
  have hfield : 0x5FFD ≤ i := hi
  cases r with
  | size field => exact ⟨field, rfl⟩
  | signature field =>
    have hlt : i < 0x5FFD := h.2
    omega
  | data addr chunk =>
    have hlt : i + 1 < 0x5FBD := h
    omega
  | stop => exact h.elim

theorem exists_signature_of_owner {r : Request} {i : Nat} (h : Owns r i) (hi : signatureField ≤ i)
    (hlt : i < sizeField) : ∃ field, r = .signature field := by
  have hfield : 0x5FBD ≤ i := hi
  have hbelow : i < 0x5FFD := hlt
  cases r with
  | size field =>
    have hge : 0x5FFD ≤ i := h.1
    omega
  | signature field => exact ⟨field, rfl⟩
  | data addr chunk =>
    have hend : i + 1 < 0x5FBD := h
    omega
  | stop => exact h.elim

/-! ## Refused frames -/

/-- Once a request has begun to program, nothing but the memory can fail it. -/
theorem run_handle_of_refused {opcode : UInt8} {payload : Bytes} {m m' : Nor n} {why : Refusal}
    (h : (handle opcode payload).run m = (.error why, m'))
    (hwhy : why = .invalidPayload ∨ why = .deniedAddress) : m' = m := by
  unfold handle at h
  rcases hparse : Request.parse? opcode payload with _ | r
  · rw [hparse] at h
    cases h
    rfl
  rw [hparse] at h
  simp only at h
  by_cases hdenied : Denied r
  · obtain ⟨why', hrun⟩ := run_execute_denied hdenied m
    rw [hrun] at h
    cases h
    rfl
  · rw [execute_eq hdenied, run_orRefuse_bind_pure] at h
    obtain ⟨hresult, -⟩ := Prod.mk.inj h
    split at hresult
    · cases hresult
    · cases hresult
      rcases hwhy with hwhy | hwhy
      · cases hwhy
      · cases hwhy

/-! ## Whole runs -/

theorem Session.take_preserves {P : Nor n → Prop}
    (h : ∀ frame m, P m → P ((handleFrame frame).run m).2) {s s' : Session n k} (hs : P s.flash)
    {b : UInt8} {outcome : Outcome} (htake : s.take b = (outcome, s')) : P s'.flash := by
  have hstep : P (s.take b).2.flash := by
    unfold Session.take
    rcases s.assembler.feed b with ⟨assembler, _ | frame⟩
    · exact hs
    · have hframe := h frame s.flash hs
      simp only
      rcases hrun : (handleFrame frame).run s.flash with ⟨why | next, flash⟩
      · rw [hrun] at hframe
        exact hframe
      · rw [hrun] at hframe
        cases next with
        | proceed => exact hframe
        | restart => exact hframe
  rw [htake] at hstep
  exact hstep

variable {σ ε : Type} [Channel σ ε]

/-- What every frame preserves, a session over any channel preserves. -/
theorem serve_preserves_of_frames {P : Nor n → Prop}
    (h : ∀ frame m, P m → P ((handleFrame frame).run m).2) {s : Session n k} (hs : P s.flash)
    (link : σ) : P (serve s link).session.flash := by
  fun_induction serve s link with
  | case1 s link e link1 hreceive => exact hs
  | case2 s link b link1 hreceive s1 htake ih => exact ih (Session.take_preserves h hs htake)
  | case3 s link b link1 hreceive s1 htake => exact Session.take_preserves h hs htake
  | case4 s link b link1 hreceive why s1 htake => exact Session.take_preserves h hs htake
  | case5 s link b link1 hreceive s1 htake e link2 hsend =>
    exact Session.take_preserves h hs htake
  | case6 s link b link1 hreceive s1 htake link2 hsend ih =>
    exact ih (Session.take_preserves h hs htake)

theorem getElem_handleFrame_of_le (frame : Frame) (m : Nor n) {i : Nat} (hi : i < n)
    (hb : loaderBase ≤ i) : ((handleFrame frame).run m).2.cells[i] = m.cells[i] := by
  unfold handleFrame
  rcases frame.opcode with _ | opcode
  · rfl
  · by_contra hchanged
    obtain ⟨r, -, howns⟩ := exists_owner (f := (opcode, frame.payload)) hi hchanged
    exact absurd (lt_loaderBase_of_owns howns) (Nat.not_lt.2 hb)

theorem getElem_update_of_le (b : Board n σ) {i : Nat} (hi : i < n) (hb : loaderBase ≤ i) :
    (update b : Run n σ ε).board.flash.cells[i] = b.flash.cells[i] := by
  have herase := getElem_run_eraseBelow_of_le (show 2 * blockSize ≤ loaderBase by decide)
    (by decide) b.flash hi hb
  unfold update
  rcases hrun : (eraseBelow loaderBase).run b.flash with ⟨fault | ⟨⟩, flash⟩
  · rw [hrun] at herase
    exact herase
  rw [hrun] at herase
  simp only
  rcases (Channel.sendAll handshakeResponse).run (Channel.setReceive false b.link)
    with ⟨e | ⟨⟩, link⟩
  · exact herase
  · have hserve := serve_preserves_of_frames (k := frameCapacity)
      (P := fun m : Nor n => m.cells[i] = flash.cells[i])
      (fun frame m hm => (getElem_handleFrame_of_le frame m hi hb).trans hm)
      (s := ⟨flash, Assembler.empty frameCapacity⟩) rfl (Channel.setReceive true link)
    exact hserve.trans herase

theorem getElem_powerOn_of_le (check : Check) (key : Vector UInt8 33) (b : Board n σ) {i : Nat}
    (hi : i < n) (hb : loaderBase ≤ i) :
    (powerOn check key b).board.flash.cells[i] = b.flash.cells[i] := by
  rcases powerOn_cases check key b with ⟨-, link, hrun⟩ | ⟨-, link, hrun⟩
  · rw [hrun]
    exact getElem_update_of_le { b with link } hi hb
  · rw [hrun, verifyAndBoot_flash]

/-! ## Confinement -/

/-- What a frame may do to a memory. -/
structure Confined (m : Nor n) (f : UInt8 × Bytes) : Prop where
  /-- A data frame stays below the last byte in front of the signature record. -/
  data : f.1 = Opcode.data.toByte → ∀ i (hi : i < n), signatureField - 1 ≤ i →
    (afterFrame m f).cells[i] = m.cells[i]
  /-- The size field is changed by a size request only. -/
  size : ∀ i (hi : i < n), sizeField ≤ i → i < loaderBase →
    (afterFrame m f).cells[i] ≠ m.cells[i] →
      ∃ field, Request.parse? f.1 f.2 = some (.size field)
  /-- The signature field is changed by a signature request only. -/
  signature : ∀ i (hi : i < n), signatureField ≤ i → i < sizeField →
    (afterFrame m f).cells[i] ≠ m.cells[i] →
      ∃ field, Request.parse? f.1 f.2 = some (.signature field)
  /-- The loader is not changed. -/
  loader : ∀ i (hi : i < n), loaderBase ≤ i → (afterFrame m f).cells[i] = m.cells[i]
  /-- A frame that is refused for what it says does nothing at all to the memory. -/
  refused : ∀ why, ((handle f.1 f.2).run m).1 = .error why →
    why = .invalidPayload ∨ why = .deniedAddress → afterFrame m f = m

theorem confined (m : Nor n) (f : UInt8 × Bytes) : Confined m f where
  data hopcode i hi hge := by
    by_contra hchanged
    obtain ⟨r, hparse, howns⟩ := exists_owner hi hchanged
    have hdata : r.opcode = .data := by
      apply Request.toByte_injective
      rw [← hopcode]
      exact (Request.eq_toByte_of_parse? hparse).symm
    cases r with
    | data addr chunk =>
      have hlt : i + 1 < 0x5FBD := howns
      have hge' : 0x5FBC ≤ i := hge
      omega
    | size field => cases hdata
    | signature field => cases hdata
    | stop => cases hdata
  size i hi hge _ hchanged := by
    obtain ⟨r, hparse, howns⟩ := exists_owner hi hchanged
    obtain ⟨field, rfl⟩ := exists_size_of_owner howns hge
    exact ⟨field, hparse⟩
  signature i hi hge hlt hchanged := by
    obtain ⟨r, hparse, howns⟩ := exists_owner hi hchanged
    obtain ⟨field, rfl⟩ := exists_signature_of_owner howns hge hlt
    exact ⟨field, hparse⟩
  loader i hi hge := by
    by_contra hchanged
    obtain ⟨r, -, howns⟩ := exists_owner hi hchanged
    exact absurd (lt_loaderBase_of_owns howns) (Nat.not_lt.2 hge)
  refused why hresult hwhy :=
    run_handle_of_refused (Prod.ext hresult rfl) hwhy

/-- No run changes the loader, whatever is on the line and whenever the power is cut. In a sequence
of frames every single one keeps to what it may do, and if the sequence has changed a byte of the
signature record then one of its frames is the request made for that byte. -/
theorem writes_confined (check : Check) (key : Vector UInt8 33) (b : Board n σ) (m : Nor n)
    (frames : List (UInt8 × Bytes)) :
    (∀ i (hi : i < n), loaderBase ≤ i →
      (powerOn check key b).board.flash.cells[i] = b.flash.cells[i]) ∧
    (∀ front f, front ++ [f] <+: frames → Confined (handleAll m front) f) ∧
    (∀ i (hi : i < n), sizeField ≤ i → i < loaderBase →
      (handleAll m frames).cells[i] ≠ m.cells[i] →
        ∃ f ∈ frames, ∃ field, Request.parse? f.1 f.2 = some (.size field)) ∧
    (∀ i (hi : i < n), signatureField ≤ i → i < sizeField →
      (handleAll m frames).cells[i] ≠ m.cells[i] →
        ∃ f ∈ frames, ∃ field, Request.parse? f.1 f.2 = some (.signature field)) := by
  refine ⟨?_, ?_, ?_, ?_⟩
  · intro i hi hge
    exact getElem_powerOn_of_le check key b hi hge
  · intro front f _
    exact confined (handleAll m front) f
  · intro i hi hge _ hchanged
    obtain ⟨f, hf, r, hparse, howns⟩ := exists_owner_of_handleAll hi hchanged
    obtain ⟨field, rfl⟩ := exists_size_of_owner howns hge
    exact ⟨f, hf, field, hparse⟩
  · intro i hi hge hlt hchanged
    obtain ⟨f, hf, r, hparse, howns⟩ := exists_owner_of_handleAll hi hchanged
    obtain ⟨field, rfl⟩ := exists_signature_of_owner howns hge hlt
    exact ⟨f, hf, field, hparse⟩

end SignedBoot.Device
