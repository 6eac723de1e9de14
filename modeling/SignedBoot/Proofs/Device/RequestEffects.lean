import Mathlib.Data.List.Basic
import Mathlib.Tactic.Common
import SignedBoot.Device.Session
import SignedBoot.Proofs.Flash.Programming

/-!
# What requests do to memory

A request that is not denied programs a fixed list of runs; a denied one does nothing. So executing
a request only ever clears bits, and it clears them in the cells of its runs alone.

The reset vector lies below all runs of most requests: a chunk for address 0 is moved up to `entry`,
and any chunk from there on stays above. A chunk for address 1, 2 or 3 is programmed where it is,
however, so its first bytes land in the vector.
-/

namespace SignedBoot.Device

open Flash Layout Wire

variable {n : Nat}

/-! ## The runs of a request -/

/-- The runs that a chunk of the image is programmed in. -/
def chunkWrites (addr : Nat) (chunk : Bytes) : List (Nat × Bytes) :=
  if addr = 0 then
    segments entry (chunk.take vectorLen) ++ segments (2 * vectorLen) (chunk.drop (2 * vectorLen))
  else segments addr chunk

/-- The runs that a request programs. -/
def requestWrites : Request → List (Nat × Bytes)
  | .size field => segments sizeField field.toList
  | .signature field => segments signatureField field.toList
  | .data addr chunk => chunkWrites addr chunk
  | .stop => []

/-- What follows a request that was executed. -/
def reaction : Request → Reaction
  | .stop => .restart
  | _ => .proceed

/-- Whether a request is refused for where it aims. -/
def Denied : Request → Prop
  | .data addr chunk => signatureField ≤ addr + chunk.length
  | _ => False

instance (r : Request) : Decidable (Denied r) :=
  match r with
  | .data _ _ => inferInstanceAs (Decidable (_ ≤ _))
  | .size _ => .isFalse id
  | .signature _ => .isFalse id
  | .stop => .isFalse id

theorem run_execute_of_aims_high {addr : Nat} {chunk : Bytes} (h : signatureField ≤ addr + chunk.length)
    (hspace : addr + chunk.length < addressSpace) (m : Nor n) :
    (execute (.data addr chunk)).run m = (.error .deniedAddress, m) := by
  rw [execute, programChunk, if_neg (Nat.not_le.2 hspace), if_pos h]
  rfl

/-- A denied request leaves the memory as it was. -/
theorem run_execute_denied {r : Request} (h : Denied r) (m : Nor n) :
    ∃ why, (execute r).run m = (.error why, m) := by
  cases r with
  | data addr chunk =>
    by_cases hspace : addressSpace ≤ addr + chunk.length
    · refine ⟨.storage .addressOverflow, ?_⟩
      rw [execute, programChunk, if_pos hspace]
      rfl
    · exact ⟨.deniedAddress, run_execute_of_aims_high h (Nat.not_le.1 hspace) m⟩
  | size _ => exact h.elim
  | signature _ => exact h.elim
  | stop => exact h.elim

theorem orRefuse_bind {α β : Type} (x : Action n α) (f : α → Action n β) :
    orRefuse (x >>= f) = orRefuse x >>= fun a => orRefuse (f a) :=
  Attempt.mapError_bind x f Refusal.storage

/-- A request that is not denied commits its runs one after the other. -/
theorem execute_eq {r : Request} (h : ¬ Denied r) :
    (execute r : Attempt (Nor n) Refusal Reaction) =
      orRefuse ((requestWrites r).forM commit) >>= fun _ => pure (reaction r) := by
  cases r with
  | size field => rfl
  | signature field => rfl
  | stop =>
    refine Attempt.eq_of_run fun m => ?_
    rfl
  | data addr chunk =>
    have hdenied : ¬ signatureField ≤ addr + chunk.length := h
    have hspace : ¬ addressSpace ≤ addr + chunk.length := by
      have hfield : signatureField < addressSpace := by decide
      omega
    have hchunk : (programChunk addr chunk : Attempt (Nor n) Refusal Unit) =
        orRefuse ((requestWrites (.data addr chunk)).forM commit) := by
      rw [programChunk, if_neg hspace, if_neg hdenied]
      simp only [requestWrites, chunkWrites]
      by_cases h0 : addr = 0
      · have happend : ((segments entry (chunk.take vectorLen) ++
            segments (2 * vectorLen) (chunk.drop (2 * vectorLen))).forM commit : Action n Unit) =
            (segments entry (chunk.take vectorLen)).forM commit >>= fun _ =>
              (segments (2 * vectorLen) (chunk.drop (2 * vectorLen))).forM commit :=
          List.forM_append
        rw [if_pos h0, if_pos h0, happend, orRefuse_bind]
        rfl
      · rw [if_neg h0, if_neg h0]
        rfl
    rw [execute, hchunk]
    rfl

/-- Saying a memory failure as a refusal, and going on with a fixed result, leaves what was done to
the memory. -/
theorem run_orRefuse_bind_pure (x : Action n Unit) (next : Reaction) (m : Nor n) :
    (orRefuse x >>= fun _ => pure next : Attempt (Nor n) Refusal Reaction).run m =
      (match (x.run m).1 with
        | .ok () => .ok next
        | .error fault => .error (.storage fault),
        (x.run m).2) := by
  rcases hx : x.run m with ⟨fault | ⟨⟩, m'⟩
  · rw [orRefuse, Attempt.run_bind_error (Attempt.run_mapError_error hx)]
  · rw [orRefuse, Attempt.run_bind_ok (Attempt.run_mapError_ok hx)]
    rfl

/-- Whatever comes of a request, some front part of its runs has been programmed. -/
theorem exists_prefix_of_execute (r : Request) (m : Nor n) :
    ∃ done, done <+: requestWrites r ∧ ((execute r).run m).2 = m.after (programChanges done) := by
  by_cases h : Denied r
  · obtain ⟨why, hrun⟩ := run_execute_denied h m
    rw [hrun]
    exact ⟨[], List.nil_prefix, m.after_nil.symm⟩
  · rw [execute_eq h, run_orRefuse_bind_pure]
    exact exists_prefix_of_forM_commit (requestWrites r) m

/-- The runs of a request that is not denied end below the loader, and those of a chunk below the
signature record. -/
theorem le_of_mem_requestWrites {r : Request} (h : ¬ Denied r) {w : Nat × Bytes}
    (hw : w ∈ requestWrites r) : w.1 + w.2.length ≤ loaderBase := by
  cases r with
  | size field =>
    have hend := (mem_segments hw).2
    rw [Vector.length_toList] at hend
    exact hend
  | signature field =>
    have hend := (mem_segments hw).2
    rw [Vector.length_toList] at hend
    exact Nat.le_trans hend (by decide)
  | data addr chunk =>
    have hchunk : addr + chunk.length < 0x6000 - 3 - 64 := Nat.not_le.1 h
    show w.1 + w.2.length ≤ 0x6000
    simp only [requestWrites, chunkWrites] at hw
    split at hw
    · rcases List.mem_append.1 hw with hw | hw
      · have hend := (mem_segments hw).2
        rw [List.length_take] at hend
        simp only [entry, vectorLen] at hend
        omega
      · have hend := (mem_segments hw).2
        rw [List.length_drop] at hend
        simp only [vectorLen] at hend
        omega
    · have hend := (mem_segments hw).2
      omega
  | stop => cases hw

/-- A request that is not denied, in bounds, is executed as far as the power lasts. -/
theorem run_execute {r : Request} (h : ¬ Denied r)
    (hn : ∀ w ∈ requestWrites r, w.1 + w.2.length ≤ n) (m : Nor n) :
    (execute r).run m =
      (if m.power.Covers (requestWrites r).length then .ok (reaction r)
        else .error (.storage .powerLoss),
        m.after (m.power.take (programChanges (requestWrites r)))) := by
  have hcommands : ((requestWrites r).forM commit : Action n Unit) =
      commands (programChanges (requestWrites r)) := by
    refine forM_commit_eq_commands fun w hw => ⟨hn w hw, ?_⟩
    exact Nat.lt_of_le_of_lt (le_of_mem_requestWrites h hw) (by decide)
  rw [execute_eq h, run_orRefuse_bind_pure, hcommands, run_commands, programChanges,
    List.length_map]
  by_cases hpower : m.power.Covers (requestWrites r).length
  · rw [if_pos hpower, if_pos hpower]
  · rw [if_neg hpower, if_neg hpower]

/-! ## Frames -/

/-- The memory after a frame, whatever came of it. -/
def afterFrame (m : Nor n) (f : UInt8 × Bytes) : Nor n :=
  ((handle f.1 f.2).run m).2

/-- The memory after frames are handled one after the other, whatever came of each. -/
def handleAll (m : Nor n) (frames : List (UInt8 × Bytes)) : Nor n :=
  frames.foldl afterFrame m

theorem afterFrame_of_none {m : Nor n} {f : UInt8 × Bytes} (h : Request.parse? f.1 f.2 = none) :
    afterFrame m f = m := by
  rw [afterFrame, handle, h]
  rfl

theorem afterFrame_of_some {m : Nor n} {f : UInt8 × Bytes} {r : Request}
    (h : Request.parse? f.1 f.2 = some r) : afterFrame m f = ((execute r).run m).2 := by
  rw [afterFrame, handle, h]

/-- A frame does what some runs of programmed bytes do. -/
theorem exists_afterFrame_eq (m : Nor n) (f : UInt8 × Bytes) :
    ∃ done, afterFrame m f = m.after (programChanges done) := by
  rcases h : Request.parse? f.1 f.2 with _ | r
  · exact ⟨[], (afterFrame_of_none h).trans m.after_nil.symm⟩
  · obtain ⟨done, -, heq⟩ := exists_prefix_of_execute r m
    exact ⟨done, (afterFrame_of_some h).trans heq⟩

/-- A frame only clears bits, and does not bring the power back or cut it. -/
theorem clears_afterFrame (m : Nor n) (f : UInt8 × Bytes) :
    Clears m.cells (afterFrame m f).cells ∧ (m.power = none → (afterFrame m f).power = none) := by
  obtain ⟨done, heq⟩ := exists_afterFrame_eq m f
  rw [heq]
  refine ⟨clears_applyAll_programChanges done m.cells, fun h => ?_⟩
  rw [Nor.after, h]
  rfl

theorem clears_handleAll (m : Nor n) (frames : List (UInt8 × Bytes)) :
    Clears m.cells (handleAll m frames).cells := by
  induction frames generalizing m with
  | nil => exact Clears.refl m.cells
  | cons f frames ih => exact (clears_afterFrame m f).1.trans (ih (afterFrame m f))

end SignedBoot.Device
