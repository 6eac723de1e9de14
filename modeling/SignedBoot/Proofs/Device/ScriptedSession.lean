import Mathlib.Data.List.Basic
import Mathlib.Tactic.Common
import SignedBoot.Device.Script
import SignedBoot.Device.PowerOn
import SignedBoot.Proofs.Flash.Commands
import SignedBoot.Proofs.Wire.Framing

/-!
# Sessions on a scripted channel

A session waits idle stretches out and ends with the line, so all it ever sees of a script are the
bytes in front of the first error. And all it does with those bytes it does for the frames among
them. `replay` says what it does for them, one after the other, and `serve_eq_replay` that a session
is nothing else.
-/

namespace SignedBoot.Device

open Flash Wire

namespace Script

/-! ## Waiting for bytes -/

/-- The bytes that arrive before the line first fails. -/
def arriving : List Event → Bytes
  | [] => []
  | .byte b :: rest => b :: arriving rest
  | .idle :: rest => arriving rest
  | .error :: _ => []

/-- Why nothing more is received once these bytes are gone. -/
def lastFailure : List Event → Failure
  | [] => .exhausted
  | .error :: _ => .lineError
  | _ :: rest => lastFailure rest

/-- A script on which bytes arrive without a pause, and which takes any number of them. -/
def plain (bs : Bytes) : Script :=
  .ofEvents (bs.map .byte) none true

theorem arriving_map_byte (bs : Bytes) : arriving (bs.map .byte) = bs := by
  induction bs with
  | nil => rfl
  | cons b bs ih =>
    rw [List.map_cons, arriving, ih]

/-- Waiting for a byte finds the first that arrives, or why none does. -/
theorem nextByte_eq (events : List Event) :
    (∃ b rest, nextByte events = (.ok b, rest) ∧ arriving events = b :: arriving rest ∧
      lastFailure rest = lastFailure events) ∨
    (∃ rest, nextByte events = (.error (lastFailure events), rest) ∧ arriving events = []) := by
  fun_induction nextByte events with
  | case1 => exact Or.inr ⟨[], rfl, rfl⟩
  | case2 rest ih => exact ih
  | case3 rest => exact Or.inr ⟨rest, rfl, rfl⟩
  | case4 b rest => exact Or.inl ⟨b, rest, rfl, rfl, rfl⟩

theorem run_receive {link : Script} (hon : link.receiving = true) :
    (Channel.receive : Attempt Script Failure UInt8).run link =
      ((nextByte link.incoming).1, { link with incoming := (nextByte link.incoming).2 }) := by
  have hrun : (Channel.receive : Attempt Script Failure UInt8).run link =
      if link.receiving then
        ((nextByte link.incoming).1, { link with incoming := (nextByte link.incoming).2 })
      else (.error .receiverOff, link) := rfl
  rw [hrun, if_pos hon]

/-- A byte that was received is the first that arrives; nothing but the script has changed. -/
theorem of_receive_eq_ok {link link' : Script} {b : UInt8} (hon : link.receiving = true)
    (h : (Channel.receive : Attempt Script Failure UInt8).run link = (.ok b, link')) :
    arriving link.incoming = b :: arriving link'.incoming ∧
      lastFailure link'.incoming = lastFailure link.incoming ∧
      link' = { link with incoming := link'.incoming } := by
  rw [run_receive hon] at h
  rcases nextByte_eq link.incoming with ⟨c, rest, hnext, harriving, hfailure⟩ | ⟨rest, hnext, -⟩
  · rw [hnext] at h
    cases h
    exact ⟨harriving, hfailure, rfl⟩
  · rw [hnext] at h
    cases h

/-- If no byte was received, none arrives; nothing but the script has changed. -/
theorem of_receive_eq_error {link link' : Script} {e : Failure} (hon : link.receiving = true)
    (h : (Channel.receive : Attempt Script Failure UInt8).run link = (.error e, link')) :
    arriving link.incoming = [] ∧ e = lastFailure link.incoming ∧
      link' = { link with incoming := link'.incoming } := by
  rw [run_receive hon] at h
  rcases nextByte_eq link.incoming with ⟨c, rest, hnext, -, -⟩ | ⟨rest, hnext, harriving⟩
  · rw [hnext] at h
    cases h
  · rw [hnext] at h
    cases h
    exact ⟨harriving, rfl, rfl⟩

theorem run_send (b : UInt8) (link : Script) :
    (Channel.send b : Attempt Script Failure Unit).run link =
      match link.sendsLeft.spend? with
      | none => (.error .sendRefused, link)
      | some sendsLeft => (.ok (), { link with sent := link.sent.push b, sendsLeft }) := rfl

end Script

/-! ## Replaying frames -/

variable {n k : Nat}

/-- What a session has done for the frames it was handed. -/
structure Replay (n : Nat) where
  /-- Program memory. -/
  flash : Nor n
  /-- Number of frames that were acknowledged. -/
  acks : Nat
  /-- How the session ended, if it did not ask for more. -/
  ending : Option (SessionEnd Script.Failure)

/-- Executes and acknowledges frames until the session ends, on a channel that sends as many bytes
as the quota says. -/
def replay (quota : Quota) (m : Nor n) : List Frame → Replay n
  | [] => ⟨m, 0, none⟩
  | frame :: frames =>
    match (handleFrame frame).run m with
    | (.ok .restart, m) => ⟨m, 0, some .stopped⟩
    | (.error why, m) => ⟨m, 0, some (.refused why)⟩
    | (.ok .proceed, m) =>
      match quota.spend? with
      | none => ⟨m, 0, some (.linkLost .sendRefused)⟩
      | some quota =>
        let rest := replay quota m frames
        { rest with acks := rest.acks + 1 }

/-- What one byte adds to a replay. -/
theorem replay_frames_cons (quota : Quota) (s : Session n k) (b : UInt8) (bs : Bytes) :
    replay quota s.flash (s.assembler.frames (b :: bs)) =
      match s.take b with
      | (.quiet, s) => replay quota s.flash (s.assembler.frames bs)
      | (.stopped, s) => ⟨s.flash, 0, some .stopped⟩
      | (.refused why, s) => ⟨s.flash, 0, some (.refused why)⟩
      | (.executed, s) =>
        match quota.spend? with
        | none => ⟨s.flash, 0, some (.linkLost .sendRefused)⟩
        | some quota =>
          let rest := replay quota s.flash (s.assembler.frames bs)
          { rest with acks := rest.acks + 1 } := by
  rw [Assembler.frames_cons, Session.take]
  rcases s.assembler.feed b with ⟨assembler, _ | frame⟩
  · rfl
  · simp only [Option.toList_some, List.singleton_append, replay]
    rcases (handleFrame frame).run s.flash with ⟨why | next, flash⟩
    · rfl
    · cases next with
      | restart => rfl
      | proceed => cases quota.spend? <;> rfl

/-- A session agrees with a replay of its frames: the memory is the same, as many bytes were sent as
frames were acknowledged, and the session ended as the replay did, or with the line if the replay
asked for more. -/
structure Served.Agrees (served : Served n k Script Script.Failure) (link : Script)
    (r : Replay n) : Prop where
  flash : served.session.flash = r.flash
  ending : served.ending = r.ending.getD (.linkLost (Script.lastFailure link.incoming))
  sent : served.link.sent = link.sent ++ Array.replicate r.acks Status.ack.toByte
  sendsLeft : served.link.sendsLeft = link.sendsLeft.use r.acks

/-- A session on a scripted channel replays the frames among the bytes that arrive. -/
theorem serve_eq_replay (s : Session n k) (link : Script) (hon : link.receiving = true) :
    (serve s link).Agrees link
      (replay link.sendsLeft s.flash (s.assembler.frames (Script.arriving link.incoming))) := by
  fun_induction serve s link with
  | case1 s link e link1 hreceive =>
    obtain ⟨harriving, rfl, hlink⟩ := Script.of_receive_eq_error hon hreceive
    rw [harriving, hlink]
    refine ⟨rfl, rfl, ?_, (Quota.use_zero _).symm⟩
    simp [replay]
  | case2 s link b link1 hreceive s1 htake ih =>
    obtain ⟨harriving, hfailure, hlink⟩ := Script.of_receive_eq_ok hon hreceive
    rw [harriving, replay_frames_cons, htake]
    have hrest := ih (by rw [hlink]; exact hon)
    have hsendsLeft : link1.sendsLeft = link.sendsLeft := by rw [hlink]
    have hsent : link1.sent = link.sent := by rw [hlink]
    rw [hsendsLeft] at hrest
    refine ⟨hrest.flash, ?_, ?_, ?_⟩
    · rw [hrest.ending, hfailure]
    · rw [hrest.sent, hsent]
    · rw [hrest.sendsLeft, hsendsLeft]
  | case3 s link b link1 hreceive s1 htake =>
    obtain ⟨harriving, -, hlink⟩ := Script.of_receive_eq_ok hon hreceive
    rw [harriving, replay_frames_cons, htake, hlink]
    refine ⟨rfl, rfl, ?_, (Quota.use_zero _).symm⟩
    simp
  | case4 s link b link1 hreceive why s1 htake =>
    obtain ⟨harriving, -, hlink⟩ := Script.of_receive_eq_ok hon hreceive
    rw [harriving, replay_frames_cons, htake, hlink]
    refine ⟨rfl, rfl, ?_, (Quota.use_zero _).symm⟩
    simp
  | case5 s link b link1 hreceive s1 htake e link2 hsend =>
    obtain ⟨harriving, -, hlink⟩ := Script.of_receive_eq_ok hon hreceive
    rw [harriving, replay_frames_cons, htake]
    have hsendsLeft : link1.sendsLeft = link.sendsLeft := by rw [hlink]
    rw [Script.run_send, hsendsLeft] at hsend
    rcases hquota : link.sendsLeft.spend? with _ | quota
    · rw [hquota] at hsend
      cases hsend
      rw [hlink]
      refine ⟨rfl, rfl, ?_, (Quota.use_zero _).symm⟩
      simp
    · rw [hquota] at hsend
      cases hsend
  | case6 s link b link1 hreceive s1 htake link2 hsend ih =>
    obtain ⟨harriving, hfailure, hlink⟩ := Script.of_receive_eq_ok hon hreceive
    rw [harriving, replay_frames_cons, htake]
    have hsendsLeft : link1.sendsLeft = link.sendsLeft := by rw [hlink]
    rw [Script.run_send, hsendsLeft] at hsend
    rcases hquota : link.sendsLeft.spend? with _ | quota
    · rw [hquota] at hsend
      cases hsend
    · rw [hquota] at hsend
      cases hsend
      have hrest := ih (by rw [hlink]; exact hon)
      refine ⟨hrest.flash, ?_, ?_, ?_⟩
      · rw [hrest.ending, hfailure]
      · rw [hrest.sent, hlink]
        apply Array.ext'
        simp [List.replicate_succ]
      · rw [hrest.sendsLeft]
        exact Quota.use_of_spend?_eq_some hquota _

end SignedBoot.Device
