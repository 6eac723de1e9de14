import Mathlib.Data.List.Basic
import Mathlib.Tactic.Common
import SignedBoot.Proofs.Device.SessionTrace
import SignedBoot.Proofs.Device.TrapFreeRun

/-!
# What can go wrong in a run

A run never traps, and the one failure of the memory that it can meet is the power cut. Requests that
would leave the memory are denied before anything is programmed, the erase sequence stays inside its
blocks, and the fields that a verification reads lie below the loader. No failure of the memory goes
unnoticed, as the first one ends the run and is kept in its ending.

The commands of a run are counted as well: the erase sequence takes a fixed number of them, and a frame
no more than one for each byte that its length field allows.
-/

namespace SignedBoot.Device

open Flash Layout Wire

variable {n k : Nat}

/-! ## Failures of the memory -/

/-- An erase sequence in bounds fails with the power only. -/
theorem eraseBelow_fault {limit : Nat} (hblocks : 2 * blockSize ≤ n) (hn : limit ≤ n)
    (hspace : limit < addressSpace) {m m' : Nor n} {fault : Fault}
    (h : (eraseBelow limit).run m = (.error fault, m')) : fault = .powerLoss := by
  rw [run_eraseBelow hblocks hn hspace, run_commands] at h
  split at h
  · cases h
  · cases h
    rfl

/-- A frame that is read and not denied fails with the power only. -/
theorem handleFrame_fault (hn : loaderBase ≤ n) {frame : Frame} {m m' : Nor n} {fault : Fault}
    (h : (handleFrame frame).run m = (.error (.storage fault), m')) : fault = .powerLoss := by
  obtain ⟨_ | opcode, payload⟩ := frame
  · cases h
  simp only [handleFrame, handle] at h
  rcases hparse : Request.parse? opcode payload with _ | r
  · rw [hparse] at h
    cases h
  rw [hparse] at h
  simp only at h
  by_cases hdenied : Denied r
  · cases r with
    | data addr chunk =>
      obtain ⟨haddr, hlen⟩ := Request.bounds_of_parse? hparse
      have hspace : maxAddress + 256 < addressSpace := by decide
      rw [run_execute_of_aims_high hdenied (by omega)] at h
      cases h
    | size _ => exact hdenied.elim
    | signature _ => exact hdenied.elim
    | stop => exact hdenied.elim
  · have hbounds : ∀ w ∈ requestWrites r, w.1 + w.2.length ≤ n := fun w hw =>
      Nat.le_trans (le_of_mem_requestWrites hdenied hw) hn
    rw [run_execute hdenied hbounds] at h
    split at h
    · cases h
    · cases h
      rfl

variable {σ ε : Type} [Channel σ ε]

/-- A session that ends in a refusal has refused some frame. -/
theorem exists_frame_of_refused {s : Session n k} {link : σ} {why : Refusal}
    (h : (serve s link).ending = .refused why) :
    ∃ frame m m', (handleFrame frame : Attempt (Nor n) Refusal Reaction).run m = (.error why, m') := by
  fun_induction serve s link with
  | case1 s link e link1 hreceive => cases h
  | case2 s link b link1 hreceive s1 htake ih => exact ih h
  | case3 s link b link1 hreceive s1 htake => cases h
  | case4 s link b link1 hreceive why' s1 htake =>
    cases h
    obtain ⟨frame, -, hrun⟩ := Session.frame_of_take (.error why) htake
    exact ⟨frame, s.flash, s1.flash, hrun⟩
  | case5 s link b link1 hreceive s1 htake e link2 hsend => cases h
  | case6 s link b link1 hreceive s1 htake link2 hsend ih => exact ih h

theorem update_fault (hn : loaderBase ≤ n) (b : Board n σ) {fault : Fault}
    (h : (update b).ending.fault? = some fault) : fault = .powerLoss := by
  rw [update] at h
  rcases herase : (eraseBelow loaderBase).run b.flash with ⟨fault' | ⟨⟩, flash⟩
  · simp only [herase] at h
    cases h
    exact eraseBelow_fault (Nat.le_trans (by decide) hn) hn (by decide) herase
  simp only [herase] at h
  rcases hsend : (Channel.sendAll handshakeResponse).run (Channel.setReceive false b.link)
    with ⟨e | ⟨⟩, link⟩
  · rw [hsend] at h
    cases h
  · rw [hsend] at h
    obtain ⟨frame, m, m', hframe⟩ := exists_frame_of_refused (eq_storage_of_fault? h)
    exact handleFrame_fault hn hframe

/-- The memory fails a run only when the power is cut. -/
theorem powerOn_fault (hn : loaderBase ≤ n) (check : Check) (key : Vector UInt8 33) (b : Board n σ)
    {fault : Fault} (h : (powerOn check key b).ending.fault? = some fault) : fault = .powerLoss := by
  rcases powerOn_cases check key b with ⟨-, link, hrun⟩ | ⟨-, link, hrun⟩
  · rw [hrun] at h
    exact update_fault hn _ h
  · rw [hrun, verifyAndBoot] at h
    rcases hverify : verify sha256 check key b.flash with fault' | (size | ⟨question, _ | _⟩)
    · exact absurd hverify (verify_ne_error hn sha256 check key b.flash fault')
    all_goals
      rw [hverify] at h
      cases h

/-! ## Number of commands -/

/-- A request that was read from a frame programs no more runs than its length field can say. -/
theorem length_requestWrites_lt {opcode : UInt8} {payload : Bytes} {r : Request}
    (h : Request.parse? opcode payload = some r) : (requestWrites r).length < 256 := by
  cases r with
  | size field =>
    refine Nat.lt_of_le_of_lt (length_segments_le _ _) ?_
    rw [Vector.length_toList]
    decide
  | signature field =>
    refine Nat.lt_of_le_of_lt (length_segments_le _ _) ?_
    rw [Vector.length_toList]
    decide
  | stop => exact Nat.zero_lt_succ _
  | data addr chunk =>
    have hlen := (Request.bounds_of_parse? h).2
    rw [requestWrites, chunkWrites]
    split
    · have hword := length_segments_le entry (chunk.take vectorLen)
      have htail := length_segments_le (2 * vectorLen) (chunk.drop (2 * vectorLen))
      rw [List.length_take] at hword
      rw [List.length_drop] at htail
      rw [List.length_append]
      omega
    · exact Nat.lt_of_le_of_lt (length_segments_le addr chunk) hlen

theorem operations_handleFrame_le (frame : Frame) (m : Nor n) :
    ((handleFrame frame).run m).2.operations ≤ m.operations + 255 := by
  obtain ⟨_ | opcode, payload⟩ := frame
  · exact Nat.le_add_right _ _
  simp only [handleFrame, handle]
  rcases hparse : Request.parse? opcode payload with _ | r
  · exact Nat.le_add_right _ _
  · obtain ⟨done, hdone, hafter⟩ := exists_prefix_of_execute r m
    have hle := hdone.length_le
    have hlt := length_requestWrites_lt hparse
    simp only [hafter, Nor.after, programChanges, List.length_map]
    omega

theorem Session.operations_take_le {s s' : Session n k} {b : UInt8} {outcome : Outcome}
    (h : s.take b = (outcome, s')) : s'.flash.operations ≤ s.flash.operations + 255 := by
  rcases Session.take_cases h with ⟨-, -, hsame⟩ | ⟨frame, result, -, -, hrun⟩
  · rw [hsame]
    exact Nat.le_add_right _ _
  · have hle := operations_handleFrame_le frame s.flash
    rw [hrun] at hle
    exact hle

/-- Each received byte costs a session at most as many commands as one frame takes. -/
theorem operations_serve_le (s : Session n k) (link : σ) :
    (serve s link).session.flash.operations ≤ s.flash.operations + 255 * Channel.pending link := by
  have hstep {s s1 : Session n k} {link link1 : σ} {b : UInt8} {outcome : Outcome}
      (hreceive : Channel.receive.run link = (.ok b, link1)) (htake : s.take b = (outcome, s1)) :
      s1.flash.operations + 255 * Channel.pending link1 ≤
        s.flash.operations + 255 * Channel.pending link := by
    have hfew := Session.operations_take_le htake
    have hless := Channel.receive_pending hreceive
    omega
  fun_induction serve s link with
  | case1 s link e link1 hreceive => exact Nat.le_add_right _ _
  | case2 s link b link1 hreceive s1 htake ih => exact Nat.le_trans ih (hstep hreceive htake)
  | case3 s link b link1 hreceive s1 htake =>
    exact Nat.le_trans (Nat.le_add_right _ _) (hstep hreceive htake)
  | case4 s link b link1 hreceive why s1 htake =>
    exact Nat.le_trans (Nat.le_add_right _ _) (hstep hreceive htake)
  | case5 s link b link1 hreceive s1 htake e link2 hsend =>
    exact Nat.le_trans (Nat.le_add_right _ _) (hstep hreceive htake)
  | case6 s link b link1 hreceive s1 htake link2 hsend ih =>
    have hkept := Channel.send_pending hsend
    have hone := hstep hreceive htake
    omega

theorem operations_eraseBelow_le (hn : loaderBase ≤ n) (m : Nor n) :
    ((eraseBelow loaderBase).run m).2.operations ≤ m.operations + 387 := by
  have hlen := (m.power.take_prefix
    (eraseChanges (m.slice 0 vectorLen) (loaderBase / blockSize) : List (Change n))).length_le
  rw [length_eraseChanges _ (by decide)] at hlen
  rw [run_eraseBelow (Nat.le_trans (by decide) hn) hn (by decide), run_commands]
  exact Nat.add_le_add_left hlen _

namespace Script

theorem length_nextPoll_le (events : List Event) : (nextPoll events).2.length ≤ events.length := by
  match events with
  | [] => exact Nat.le_refl _
  | .byte b :: rest => exact Nat.le_succ _
  | .idle :: rest => exact Nat.le_succ _
  | .error :: rest => exact Nat.le_succ _

end Script

theorem length_incoming_listen_le (left matched : Nat) (link : Script) :
    ((listen left matched).run link).2.incoming.length ≤ link.incoming.length := by
  induction left generalizing matched link with
  | zero => exact Nat.le_refl _
  | succ left ih =>
    have hless := Script.length_nextPoll_le link.incoming
    rw [run_listen_succ, Script.run_poll]
    rcases (Script.nextPoll link.incoming).1 with e | _ | b
    · exact hless
    · exact Nat.le_trans (ih matched _) hless
    · simp only
      split
      · exact hless
      · exact Nat.le_trans (ih _ _) hless

theorem operations_update_le (hn : loaderBase ≤ n) (b : Board n Script) :
    (update b).board.flash.operations ≤ b.flash.operations + 387 + 255 * b.link.incoming.length := by
  have herase := operations_eraseBelow_le hn b.flash
  unfold update
  rcases hrun : (eraseBelow loaderBase).run b.flash with ⟨fault | ⟨⟩, flash⟩
  · rw [hrun] at herase
    exact Nat.le_trans herase (Nat.le_add_right _ _)
  rw [hrun] at herase
  obtain ⟨sent, sendsLeft, hlink⟩ :=
    Script.exists_sendAll_eq handshakeResponse (Channel.setReceive false b.link)
  simp only
  rcases hsend : (Channel.sendAll handshakeResponse).run (Channel.setReceive false b.link)
    with ⟨e | ⟨⟩, link⟩
  · exact Nat.le_trans herase (Nat.le_add_right _ _)
  · rw [hsend] at hlink
    obtain rfl := hlink
    have hserve := operations_serve_le (k := frameCapacity) ⟨flash, Assembler.empty frameCapacity⟩
      (Channel.setReceive true { Channel.setReceive false b.link with sent, sendsLeft })
    exact Nat.le_trans hserve (Nat.add_le_add_right herase (255 * b.link.incoming.length))

/-- The commands of a run are bounded by the length of its script. -/
theorem operations_powerOn_le (hn : loaderBase ≤ n) (check : Check) (key : Vector UInt8 33)
    (b : Board n Script) :
    (powerOn check key b).board.flash.operations ≤
      b.flash.operations + 387 + 255 * b.link.incoming.length := by
  have hlisten : (awaitHandshake.run b.link).2.incoming.length ≤ b.link.incoming.length :=
    length_incoming_listen_le pollLimit 0 (b.link.setReceive true)
  unfold powerOn
  rcases hawait : awaitHandshake.run b.link with ⟨e | _ | _, link⟩
  · simp only [verifyAndBoot_flash]
    omega
  · simp only [verifyAndBoot_flash]
    omega
  · rw [hawait] at hlisten
    have hupdate := operations_update_le hn { b with link }
    simp only at hupdate hlisten ⊢
    omega

/-- From power-on to its end a run stays inside its arrays and its numbers stay inside 32 bits, whatever
is in the memory, whatever arrives and whenever the power is cut. Nothing but the power cut ever fails
the memory, and it carries out a bounded number of commands. -/
theorem powerOn_ends_without_trap (check : Check) (key : Vector UInt8 33)
    (b : Board flashSize Script) :
    Trapping.powerOn check key b = .ok (powerOn check key b) ∧
    (∀ fault, (powerOn check key b).ending.fault? = some fault → fault = .powerLoss) ∧
    (powerOn check key b).board.flash.operations ≤
      b.flash.operations + 387 + 255 * b.link.incoming.length := by
  have hn : loaderBase ≤ flashSize := by decide
  refine ⟨?_, ?_, ?_⟩
  · exact Trapping.powerOn_eq check key b hn (by decide)
  · intro fault h
    exact powerOn_fault hn check key b h
  · exact operations_powerOn_le hn check key b

end SignedBoot.Device
