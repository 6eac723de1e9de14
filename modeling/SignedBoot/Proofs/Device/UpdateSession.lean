import Mathlib.Data.List.Basic
import Mathlib.Tactic.Common
import SignedBoot.Proofs.Device.RequestEffects
import SignedBoot.Proofs.Device.ScriptedSession
import SignedBoot.Proofs.Flash.EraseSequence
import SignedBoot.Proofs.Wire.RequestCodec

/-!
# Updates on a scripted channel

An update is an erase sequence, an answer, and a session. If the power is cut during the sequence
nothing else happens; otherwise the memory is what the session makes of it. A session in turn does
nothing to the memory but execute its frames, so what every frame preserves the session preserves,
and frames that carry well-formed requests are executed and acknowledged one by one.
-/

namespace SignedBoot.Device

open Flash Layout Wire

variable {n : Nat}

/-! ## Sending on a script -/

theorem Script.sendAll_nil (link : Script) :
    (Channel.sendAll [] : Attempt Script Script.Failure Unit).run link = (.ok (), link) := rfl

theorem Script.sendAll_cons (b : UInt8) (bs : Bytes) :
    (Channel.sendAll (b :: bs) : Attempt Script Script.Failure Unit) =
      Channel.send b >>= fun _ => Channel.sendAll bs := rfl

/-- Sending touches nothing but the bytes sent and the number of those that still can be. -/
theorem Script.exists_sendAll_eq (bs : Bytes) (link : Script) :
    ∃ sent sendsLeft, ((Channel.sendAll bs : Attempt Script Script.Failure Unit).run link).2 =
      { link with sent, sendsLeft } := by
  induction bs generalizing link with
  | nil => exact ⟨link.sent, link.sendsLeft, rfl⟩
  | cons b bs ih =>
    rw [Script.sendAll_cons]
    rcases hquota : link.sendsLeft.spend? with _ | quota
    · have hsend : (Channel.send b : Attempt Script Script.Failure Unit).run link =
          (.error .sendRefused, link) := by rw [Script.run_send, hquota]
      rw [Attempt.run_bind_error hsend]
      exact ⟨link.sent, link.sendsLeft, rfl⟩
    · have hsend : (Channel.send b : Attempt Script Script.Failure Unit).run link =
          (.ok (), { link with sent := link.sent.push b, sendsLeft := quota }) := by
        rw [Script.run_send, hquota]
      rw [Attempt.run_bind_ok hsend]
      obtain ⟨sent, sendsLeft, hrest⟩ := ih { link with sent := link.sent.push b, sendsLeft := quota }
      exact ⟨sent, sendsLeft, hrest⟩

theorem Script.run_sendAll_of_none (bs : Bytes) {link : Script} (h : link.sendsLeft = none) :
    (Channel.sendAll bs : Attempt Script Script.Failure Unit).run link =
      (.ok (), { link with sent := link.sent ++ bs.toArray }) := by
  induction bs generalizing link with
  | nil => simp [Script.sendAll_nil]
  | cons b bs ih =>
    obtain ⟨incoming, sendsLeft, receiving, sent, polls, lastTimeout, switches⟩ := link
    obtain rfl : sendsLeft = none := h
    have hsend : (Channel.send b : Attempt Script Script.Failure Unit).run
        ⟨incoming, none, receiving, sent, polls, lastTimeout, switches⟩ =
        (.ok (), ⟨incoming, none, receiving, sent.push b, polls, lastTimeout, switches⟩) := rfl
    rw [Script.sendAll_cons, Attempt.run_bind_ok hsend, ih rfl]
    simp

/-! ## Sessions -/

theorem handleFrame_content {r : Request} (h : r.Fits) (hne : r.HasBytes) :
    (handleFrame (Frame.ofContent r.content) : Attempt (Nor n) Refusal Reaction) = execute r := by
  show handle r.opcode.toByte r.payload = execute r
  unfold handle
  rw [Request.parse?_content h hne]

/-- What every frame of a session preserves, the session preserves. -/
theorem replay_preserves {P : Vector UInt8 n → Prop} {frames : List Frame}
    (h : ∀ frame ∈ frames, ∀ m : Nor n, P m.cells → P ((handleFrame frame).run m).2.cells)
    (quota : Quota) {m : Nor n} (hm : P m.cells) : P (replay quota m frames).flash.cells := by
  induction frames generalizing quota m with
  | nil => exact hm
  | cons frame frames ih =>
    have hhead := h frame List.mem_cons_self m hm
    unfold replay
    rcases hrun : (handleFrame frame).run m with ⟨why | next, m'⟩
    · rw [hrun] at hhead
      exact hhead
    · rw [hrun] at hhead
      cases next with
      | restart => exact hhead
      | proceed =>
        rcases hquota : quota.spend? with _ | quota'
        · simp only
          exact hhead
        · simp only
          exact ih (fun f hf => h f (List.mem_cons_of_mem _ hf)) quota' hhead

/-- Well-formed requests that do not stop the session are executed and acknowledged, as long as the
power and the channel last, and a request to stop ends it. -/
theorem replay_requests {rs : List Request} {m : Nor n} (hpower : m.power = none)
    (h : ∀ r ∈ rs, r.Fits ∧ r.HasBytes ∧ ¬ Denied r ∧ reaction r = .proceed) (hn : loaderBase ≤ n) :
    replay none m ((rs ++ [Request.stop]).map fun r => Frame.ofContent r.content) =
      ⟨m.after (programChanges (rs.flatMap requestWrites)), rs.length, some .stopped⟩ := by
  induction rs generalizing m with
  | nil =>
    have hstop : (handleFrame (Frame.ofContent Request.stop.content)).run m = (.ok .restart, m) := by
      have hexecute : (handleFrame (Frame.ofContent Request.stop.content) :
          Attempt (Nor n) Refusal Reaction) = execute .stop := handleFrame_content trivial trivial
      rw [hexecute]
      rfl
    simp only [List.nil_append, List.map_cons, replay, hstop, List.flatMap_nil, programChanges,
      List.map_nil, Nor.after_nil, List.length_nil]
  | cons r rs ih =>
    obtain ⟨hfits, hbytes, hdenied, hproceed⟩ := h r List.mem_cons_self
    have hbounds : ∀ w ∈ requestWrites r, w.1 + w.2.length ≤ n := fun w hw =>
      Nat.le_trans (le_of_mem_requestWrites hdenied hw) hn
    have hrun : (handleFrame (Frame.ofContent r.content)).run m =
        (.ok .proceed, m.after (programChanges (requestWrites r))) := by
      rw [handleFrame_content hfits hbytes, run_execute hdenied hbounds, hpower, hproceed]
      rfl
    have hpower' : (m.after (programChanges (requestWrites r))).power = none := by
      show m.power.use _ = none
      rw [hpower]
      rfl
    have hrest := ih hpower' fun q hq => h q (List.mem_cons_of_mem _ hq)
    rw [List.cons_append, List.map_cons, replay, hrun]
    simp only [Quota.spend?]
    rw [hrest, List.flatMap_cons, programChanges_append, Nor.after_append]
    rfl

/-! ## Updates -/

/-- The changes that erase the application area around the vector of a memory. -/
def areaChanges (m : Nor flashSize) : List (Change flashSize) :=
  eraseChanges (m.slice 0 vectorLen) (loaderBase / blockSize)

theorem length_areaChanges (m : Nor flashSize) : (areaChanges m).length = 387 := by
  unfold areaChanges
  exact length_eraseChanges _ (by decide)

/-- The erase sequence before an update is carried out as far as the power lasts. -/
theorem run_eraseBelow_loaderBase (m : Nor flashSize) :
    (eraseBelow loaderBase).run m =
      (if m.power.Covers (areaChanges m).length then .ok () else .error .powerLoss,
        m.after (m.power.take (areaChanges m))) := by
  rw [run_eraseBelow (by decide) (by decide) (by decide), run_commands]
  rfl

/-- If the erase sequence fails, nothing else is done to the memory. -/
theorem update_flash_of_error {m m' : Nor n} {fault : Fault}
    (h : (eraseBelow loaderBase).run m = (.error fault, m')) (link : Script) :
    (update ⟨m, link⟩).board.flash = m' := by
  unfold update
  rw [h]

/-- If it succeeds, the rest is done by the session, unless the host could not be told. -/
theorem update_flash_of_ok {m m' : Nor n} (h : (eraseBelow loaderBase).run m = (.ok (), m'))
    (link : Script) :
    (update ⟨m, link⟩).board.flash = m' ∨
      ∃ link' : Script, link'.incoming = link.incoming ∧ link'.receiving = true ∧
        (update ⟨m, link⟩).board.flash =
          (serve ⟨m', Assembler.empty frameCapacity⟩ link').session.flash := by
  obtain ⟨sent, sendsLeft, hlink⟩ :=
    Script.exists_sendAll_eq handshakeResponse (Channel.setReceive false link)
  unfold update
  rw [h]
  simp only
  rcases hsend : (Channel.sendAll handshakeResponse).run (Channel.setReceive false link)
    with ⟨e | ⟨⟩, link1⟩
  · exact Or.inl rfl
  · rw [hsend] at hlink
    have hincoming := congrArg Script.incoming hlink
    exact Or.inr ⟨Channel.setReceive true link1, hincoming, rfl, rfl⟩

end SignedBoot.Device
