import SignedBoot.Proofs.Device.ScriptedSession
import SignedBoot.Proofs.Exchange.Steps
import SignedBoot.Proofs.Host.OpenLine

/-!
# The programs behind an exchange

In an exchange host and device take single steps. What is left of the host's program in a stage is a
program again, and running it does one step after the other: as long as no wait runs out, the host has
done what its program does with the bytes that it has heard so far. In the same way the device has done
what `serve` does with the bytes that it has been fed.
-/

namespace SignedBoot

open Flash Layout Wire

/-! ## The host -/

namespace Host

namespace Line

/-- Whatever is written to the line is taken, and some bytes arrive on it without a pause. -/
structure Brings (l : Line) (bs : Bytes) : Prop where
  incoming : l.incoming = bs.map .byte
  writeMax : l.writeMax = none
  txRoom : l.txRoom = none
  flushRoom : l.flushRoom = none

/-- A line that has not been used, on which some bytes arrive without a pause. -/
def plain (bs : Bytes) : Line :=
  .ofEvents (bs.map .byte) none none none none

theorem brings_plain (bs : Bytes) : (plain bs).Brings bs :=
  ⟨rfl, rfl, rfl, rfl⟩

namespace Brings

variable {l : Line} {bs : Bytes}

theorem carries (h : l.Brings bs) (bytes flushes : Nat) : l.Carries bytes flushes where
  writes := by
    rw [h.writeMax]
    nofun
  room := by
    rw [h.txRoom]
    exact Quota.covers_none _
  flush := by
    rw [h.flushRoom]
    exact Quota.covers_none _

theorem wrote (h : l.Brings bs) (out : Bytes) : (l.wrote out).Brings bs where
  incoming := h.incoming
  writeMax := h.writeMax
  txRoom := congrArg (Quota.use · out.length) h.txRoom
  flushRoom := congrArg (Quota.use · 1) h.flushRoom

theorem sleep (h : l.Brings bs) (millis : Nat) : (l.sleep millis).Brings bs :=
  ⟨h.incoming, h.writeMax, h.txRoom, h.flushRoom⟩

/-- Where nothing is limited it does not matter in how many pieces something is written. -/
theorem wrote_wrote (h : l.Brings bs) (first second : Bytes) :
    (l.wrote first).wrote second = l.wrote (first ++ second) := by
  have hsent : l.sent ++ first ++ second = l.sent ++ (first ++ second) := by
    apply Array.ext'
    simp
  simp only [Line.wrote, hsent, h.txRoom, h.flushRoom]
  rfl

theorem run_transmit (h : l.Brings bs) (out : Bytes) :
    (transmit out).run l = (.ok (), l.wrote out) :=
  Line.run_transmit (h.carries _ _)

theorem run_read {b : UInt8} (h : l.Brings (b :: bs)) (timeout : Nat) :
    ∃ l', (read timeout).run l = (.ok (some b), l') ∧ l'.Brings bs ∧ l'.sent = l.sent := by
  refine ⟨{ l with incoming := bs.map .byte }, ?_, ⟨rfl, h.writeMax, h.txRoom, h.flushRoom⟩, rfl⟩
  show readBy (l.now + timeout) l = _
  rw [readBy]
  split
  all_goals simp_all [h.incoming]

end Brings

end Line

theorem expectAfter_of_heard {expected received : Bytes} {b : UInt8} {l l' : Line}
    (h : (Line.read readTimeout).run l = (.ok (some b), l')) :
    expectAfter expected received l =
      if endsWith expected (b :: received) then (.ok true, l')
      else expectAfter expected (b :: received) l' := by
  rw [expectAfter]
  split
  all_goals simp_all

theorem replyFrom_of_heard {b : UInt8} {l l' : Line}
    (h : (Line.read ackTimeout).run l = (.ok (some b), l')) :
    replyFrom l =
      match reply? b with
      | some answer => (answer, l')
      | none => replyFrom l' := by
  rw [replyFrom]
  split
  · next heq => cases heq.symm.trans h
  · next heq => cases heq.symm.trans h
  · next heq =>
    cases heq.symm.trans h
    rcases reply? b with _ | answer <;> rfl

theorem run_awaitReply_of_reply {b : UInt8} {answer : Except Failure Unit} {l l' : Line}
    (h : (Line.read ackTimeout).run l = (.ok (some b), l')) (hreply : reply? b = some answer) :
    awaitReply.run l = (answer, l') := by
  have hheard := replyFrom_of_heard h
  rw [hreply] at hheard
  exact hheard

theorem run_awaitReply_of_noise {b : UInt8} {l l' : Line}
    (h : (Line.read ackTimeout).run l = (.ok (some b), l')) (hreply : reply? b = none) :
    awaitReply.run l = awaitReply.run l' := by
  have hheard := replyFrom_of_heard h
  rw [hreply] at hheard
  exact hheard

theorem Stage.remains_before (rest : List Request) : (before rest).remains = sendInTurn rest := by
  cases rest with
  | nil => rfl
  | cons r rest =>
    rw [before, sendInTurn, send]
    rcases r.encode? with _ | frame
    · exact Attempt.eq_of_run fun _ => rfl
    · rfl

namespace Stage

/-- Running what is left of the update in one stage comes to running what is left of it in another, once
some bytes have been written, on a line on which some bytes are still to arrive. -/
def Resumes (s : Stage) (l : Line) (out : Bytes) (t : Stage) (rest : Bytes) : Prop :=
  ∃ l', l'.Brings rest ∧ l'.sent.toList = l.sent.toList ++ out ∧ s.remains.run l = t.remains.run l'

section
variable {r s t : Stage} {l : Line} {rest : Bytes}

theorem Resumes.wrote (h : l.Brings rest) (out : Bytes)
    (hrun : s.remains.run l = t.remains.run (l.wrote out)) : s.Resumes l out t rest :=
  ⟨l.wrote out, h.wrote out, by simp [Line.wrote], hrun⟩

theorem Resumes.heard {b : UInt8} (timeout : Nat) (h : l.Brings (b :: rest))
    (hrun : ∀ l', (Line.read timeout).run l = (.ok (some b), l') → s.remains.run l = t.remains.run l') :
    s.Resumes l [] t rest := by
  obtain ⟨l', hread, hl', hsent⟩ := h.run_read timeout
  exact ⟨l', hl', by rw [hsent, List.append_nil], hrun l' hread⟩

end

/-- A step in which no wait runs out does the next thing that is left of the update. -/
theorem Step.resumes {s t : Stage} {act : Act} (hstep : Step s act t) (hwait : act ≠ .timesOut)
    {l : Line} {rest : Bytes} (h : l.Brings (act.heard ++ rest)) :
    s.Resumes l act.written t rest := by
  cases hstep with
  | @knocks b left attempts requests =>
    have hknock : (knockWith b).run l = (.ok (), (l.wrote [b]).sleep byteGap) :=
      Attempt.run_bind_ok (h.run_transmit [b])
    have hsplit : (knocking (b :: left) attempts requests).remains =
        knockWith b >>= fun _ => (knocking left attempts requests).remains := bind_assoc _ _ _
    refine ⟨_, (h.wrote [b]).sleep byteGap, by simp [Line.sleep, Line.wrote, Act.written], ?_⟩
    rw [hsplit, Attempt.run_bind_ok hknock]
  | knocked => exact ⟨l, h, (List.append_nil _).symm, rfl⟩
  | hearsAnswer hends =>
    refine .heard readTimeout h fun l' hread => ?_
    have hheard := (expectAfter_of_heard hread).trans (if_pos hends)
    rw [remains_before]
    simp only [remains, sendOnAnswer, Attempt.run_bind, hheard, if_true]
  | hearsMore hmore =>
    refine .heard readTimeout h fun l' hread => ?_
    have hheard := (expectAfter_of_heard hread).trans (if_neg (Bool.eq_false_iff.1 hmore))
    simp only [remains, sendOnAnswer, Attempt.run_bind, hheard]
  | knocksAgain => exact absurd rfl hwait
  | @sends b left requests =>
    refine .wrote h [b] ?_
    have hall := h.run_transmit (b :: left)
    have hrest := (h.wrote [b]).run_transmit left
    rw [h.wrote_wrote, List.singleton_append] at hrest
    simp only [remains, Attempt.run_bind, hall, hrest]
  | sent hrequests =>
    refine .wrote h [] ?_
    simp only [remains, sendOnReply_of_ne_nil hrequests]
    exact Attempt.run_bind_ok (h.run_transmit [])
  | finishes => exact .wrote h [] (Attempt.run_bind_ok (h.run_transmit []))
  | hearsNoise hreply =>
    refine .heard ackTimeout h fun l' hread => ?_
    simp only [remains, Attempt.run_bind, run_awaitReply_of_noise hread hreply]
  | hearsAck hreply =>
    refine .heard ackTimeout h fun l' hread => ?_
    rw [remains_before]
    exact Attempt.run_bind_ok (run_awaitReply_of_reply hread hreply)
  | hearsRefusal hreply =>
    refine .heard ackTimeout h fun l' hread => ?_
    exact Attempt.run_bind_error (run_awaitReply_of_reply hread hreply)
  | givesUp => exact absurd rfl hwait

/-- So does a whole path. -/
theorem resumes_of_path {s t : Stage} {acts : List Act} (hpath : Path Step s acts t)
    (hwaits : .timesOut ∉ acts) {l : Line} {rest : Bytes}
    (h : l.Brings (acts.flatMap Act.heard ++ rest)) :
    s.Resumes l (acts.flatMap Act.written) t rest := by
  induction hpath generalizing rest with
  | nil => exact ⟨l, h, (List.append_nil _).symm, rfl⟩
  | @snoc acts t u act _ hstep ih =>
    rw [List.mem_append, List.mem_singleton, not_or] at hwaits
    rw [List.flatMap_append, List.flatMap_singleton, List.append_assoc] at h
    obtain ⟨l1, hl1, hsent1, hrun1⟩ := ih hwaits.1 h
    obtain ⟨l2, hl2, hsent2, hrun2⟩ := hstep.resumes (Ne.symm hwaits.2) hl1
    refine ⟨l2, hl2, ?_, hrun1.trans hrun2⟩
    rw [hsent2, hsent1, List.flatMap_append, List.flatMap_singleton, List.append_assoc]

/-- What has been done on a path is what the program does with the bytes that were heard: everything
written is the front of what it writes, and if it has ended on the path it ends like that. -/
theorem run_remains_of_path {s t : Stage} {acts : List Act} (hpath : Path Step s acts t)
    (hwaits : .timesOut ∉ acts) :
    acts.flatMap Act.written <+:
        (s.remains.run (.plain (acts.flatMap Act.heard))).2.sent.toList ∧
      ∀ result, t = .done result →
        (s.remains.run (.plain (acts.flatMap Act.heard))).1 = result := by
  have hbrings : (Line.plain (acts.flatMap Act.heard)).Brings (acts.flatMap Act.heard ++ []) := by
    rw [List.append_nil]
    exact Line.brings_plain _
  obtain ⟨l, -, hsent, hrun⟩ := resumes_of_path hpath hwaits hbrings
  obtain ⟨u, ⟨later, -, hlater, -⟩, -⟩ := t.realizes_remains l
  rw [hrun]
  refine ⟨⟨later.flatMap Act.written, ?_⟩, ?_⟩
  · rw [hlater, hsent]
    rfl
  · rintro result rfl
    rfl

end Stage

end Host

/-! ## The device -/

namespace Device

variable {n : Nat}

namespace Script

/-- Whatever is sent on the script is taken, and some bytes arrive on it without a pause. -/
structure Brings (link : Script) (bs : Bytes) : Prop where
  incoming : link.incoming = bs.map .byte
  sendsLeft : link.sendsLeft = none
  receiving : link.receiving = true

theorem brings_plain (bs : Bytes) : (plain bs).Brings bs :=
  ⟨rfl, rfl, rfl⟩

section
variable {link : Script} {bs : Bytes}

theorem Brings.run_receive {b : UInt8} (h : link.Brings (b :: bs)) :
    ∃ link', (Channel.receive : Attempt Script Failure UInt8).run link = (.ok b, link') ∧
      link'.Brings bs ∧ link'.sent = link.sent := by
  have hnext : nextByte link.incoming = (.ok b, bs.map .byte) := by
    rw [h.incoming]
    rfl
  refine ⟨{ link with incoming := bs.map .byte }, ?_, ⟨rfl, h.sendsLeft, h.receiving⟩, rfl⟩
  rw [Script.run_receive h.receiving, hnext]

theorem Brings.run_send (h : link.Brings bs) (b : UInt8) :
    ∃ link', (Channel.send b : Attempt Script Failure Unit).run link = (.ok (), link') ∧
      link'.Brings bs ∧ link'.sent.toList = link.sent.toList ++ [b] := by
  refine ⟨{ link with sent := link.sent.push b, sendsLeft := none }, ?_,
    ⟨h.incoming, rfl, h.receiving⟩, Array.toList_push⟩
  rw [Script.run_send, h.sendsLeft]
  rfl

end

end Script

/-- What a session does with a byte that it has received. -/
theorem serve_of_receive {s : Session n frameCapacity} {link link1 : Script} {b : UInt8}
    (hreceive : (Channel.receive : Attempt Script Script.Failure UInt8).run link = (.ok b, link1)) :
    serve s link =
      match s.take b with
      | (.quiet, s1) => serve s1 link1
      | (.stopped, s1) => ⟨.stopped, s1, link1⟩
      | (.refused why, s1) => ⟨.refused why, s1, link1⟩
      | (.executed, s1) =>
        match (Channel.send Status.ack.toByte : Attempt Script Script.Failure Unit).run link1 with
        | (.error e, link2) => ⟨.linkLost e, s1, link2⟩
        | (.ok (), link2) => serve s1 link2 := by
  rw [serve]
  split
  · next heq => cases heq.symm.trans hreceive
  · next heq =>
    cases heq.symm.trans hreceive
    rcases s.take b with ⟨_ | _ | _ | why, s1⟩
    · rfl
    · simp only
      split
      · next hsend => rw [hsend]
      · next hsend => rw [hsend]
    · rfl
    · rfl

/-- A session to which nothing more arrives ends where it is. -/
theorem serve_of_silence (s : Session n frameCapacity) {link : Script} (h : link.Brings []) :
    serve s link = ⟨.linkLost .exhausted, s, link⟩ := by
  have hreceive : (Channel.receive : Attempt Script Script.Failure UInt8).run link =
      (.error .exhausted, link) := by
    obtain ⟨incoming⟩ := link
    obtain rfl : incoming = [] := h.incoming
    rw [Script.run_receive h.receiving]
    rfl
  rw [serve]
  split
  · next heq =>
    cases heq.symm.trans hreceive
    rfl
  · next heq => cases heq.symm.trans hreceive

namespace Stage

/-- In a stage of a session, on the given channel, the session is going to end like that. -/
inductive ServesTo (served : Served n frameCapacity Script Script.Failure) :
    Stage n Empty → Script → Prop where
  | serving {s : Session n frameCapacity} {link : Script} (h : serve s link = served) :
    ServesTo served (serving s) link
  | acknowledging {s : Session n frameCapacity} {link link' : Script}
    (hsend : (Channel.send Status.ack.toByte : Attempt Script Script.Failure Unit).run link =
      (.ok (), link'))
    (h : serve s link' = served) : ServesTo served (acknowledging s) link
  | stopped {s : Session n frameCapacity} {link : Script} (h : served = ⟨.stopped, s, link⟩) :
    ServesTo served (reset (.sessionOver .stopped) s.flash) link
  | refusing {why : Refusal} {s : Session n frameCapacity} {link : Script}
    (h : served = ⟨.refused why, s, link⟩) : ServesTo served (refusing why s) link
  /-- The session itself does not report why it refused a frame. -/
  | refused {why : Refusal} {s : Session n frameCapacity} {link link' : Script}
    (h : served = ⟨.refused why, s, link⟩) :
    ServesTo served (reset (.sessionOver (.refused why)) s.flash) link'

/-- A step of a session does the next thing that is left of it. -/
theorem ServesTo.step {served : Served n frameCapacity Script Script.Failure} {s t : Stage n Empty}
    {act : Act Empty} {link : Script} {rest : Bytes} (hserves : ServesTo served s link)
    (hstep : Step s act t) (h : link.Brings (act.heard ++ rest)) :
    ∃ link', link'.Brings rest ∧ link'.sent.toList = link.sent.toList ++ act.told ∧
      ServesTo served t link' := by
  cases hserves with
  | serving hserve =>
    obtain ⟨b, rfl, rfl⟩ := eq_taken_of_serving hstep
    obtain ⟨link1, hreceive, hlink1, hsent⟩ := Script.Brings.run_receive h
    have hnext := (serve_of_receive hreceive).symm.trans hserve
    generalize Session.take _ b = found at hnext ⊢
    obtain ⟨outcome, s1⟩ := found
    refine ⟨link1, hlink1, by rw [hsent]; exact (List.append_nil _).symm, ?_⟩
    cases outcome with
    | quiet => exact .serving hnext
    | stopped => exact .stopped hnext.symm
    | refused why => exact .refusing hnext.symm
    | executed =>
      obtain ⟨link2, hsend, -⟩ := hlink1.run_send Status.ack.toByte
      simp only [hsend] at hnext
      exact .acknowledging hsend hnext
  | acknowledging hsend hserve =>
    cases hstep with
    | acknowledges =>
      obtain ⟨link1, hsend1, hlink1, hsent⟩ := h.run_send Status.ack.toByte
      cases hsend.symm.trans hsend1
      exact ⟨_, hlink1, hsent, .serving hserve⟩
    | @acknowledgeFails s e => exact e.elim
  | stopped => cases hstep
  | refusing hserved =>
    cases hstep with
    | @reports s why status hstatus =>
      obtain ⟨link1, -, hlink1, hsent⟩ := h.run_send status.toByte
      exact ⟨link1, hlink1, hsent, .refused hserved⟩
    | @reportFails s why status e => exact e.elim
    | leaves => exact ⟨link, h, (List.append_nil _).symm, .refused hserved⟩
  | refused => cases hstep

/-- What has been done on a path of a session is what the session does with the bytes that it was fed. -/
theorem serve_of_path {s : Session n frameCapacity} {t : Stage n Empty} {acts : List (Act Empty)}
    (hpath : Path Step (serving s) acts t) {rest : Bytes} {link : Script}
    (h : link.Brings (acts.flatMap Act.heard ++ rest)) :
    ∃ link', link'.Brings rest ∧ link'.sent.toList = link.sent.toList ++ acts.flatMap Act.told ∧
      ServesTo (serve s link) t link' := by
  induction hpath generalizing rest with
  | nil => exact ⟨link, h, (List.append_nil _).symm, .serving rfl⟩
  | @snoc acts t u act _ hstep ih =>
    rw [List.flatMap_append, List.flatMap_singleton, List.append_assoc] at h
    obtain ⟨link1, hlink1, hsent1, hserves⟩ := ih h
    obtain ⟨link2, hlink2, hsent2, hserves2⟩ := hserves.step hstep hlink1
    refine ⟨link2, hlink2, ?_, hserves2⟩
    rw [hsent2, hsent1, List.flatMap_append, List.flatMap_singleton, List.append_assoc]

/-- The end of a session to which nothing more arrives, read off the stage that it is in. -/
theorem ServesTo.of_silence {served : Served n frameCapacity Script Script.Failure} {t : Stage n Empty}
    {link : Script} (hserves : ServesTo served t link) (h : link.Brings []) :
    served.session.flash = t.flash ∧ (∀ why, served.ending = .refused why ↔ t.refusal? = some why) ∧
      (t.refusal? = none → link.sent.toList <+: served.link.sent.toList) := by
  cases hserves with
  | @serving s _ hserve =>
    rw [serve_of_silence s h] at hserve
    subst hserve
    exact ⟨rfl, fun _ => ⟨nofun, nofun⟩, fun _ => List.prefix_rfl⟩
  | @acknowledging s _ link' hsend hserve =>
    obtain ⟨link1, hsend1, hlink1, hsent⟩ := h.run_send Status.ack.toByte
    cases hsend.symm.trans hsend1
    rw [serve_of_silence s hlink1] at hserve
    subst hserve
    exact ⟨rfl, fun _ => ⟨nofun, nofun⟩, fun _ => hsent ▸ List.prefix_append _ _⟩
  | stopped hserved =>
    subst hserved
    exact ⟨rfl, fun _ => ⟨nofun, nofun⟩, fun _ => List.prefix_rfl⟩
  | @refusing why _ _ hserved =>
    subst hserved
    exact ⟨rfl, fun _ => by simp [refusal?], nofun⟩
  | @refused why _ _ _ hserved =>
    subst hserved
    exact ⟨rfl, fun _ => by simp [refusal?], nofun⟩

end Stage

end Device

/-! ## Both sides -/

namespace Exchange

open Host Device

/-- In the exchange the host has done what its program `update` does with the bytes that it has heard,
and the device what `serve` does with the bytes that it has been fed. -/
structure Enacts (update : Attempt Line Failure Unit) (session : Session n frameCapacity)
    (events : List Event) (s : Exchange n) : Prop where
  /-- What has been written is the front of what the program writes. -/
  written : requested events <+: (update.run (Line.plain (heard events))).2.sent.toList
  result : ∀ result, s.host = .done result → (update.run (Line.plain (heard events))).1 = result
  /-- What has been told is the front of what the session sends. -/
  told : s.device.refusal? = none →
    told events <+: (serve session (Script.plain (fed events))).link.sent.toList
  flash : (serve session (Script.plain (fed events))).session.flash = s.device.flash
  refused : ∀ why, (serve session (Script.plain (fed events))).ending = .refused why ↔
    s.device.refusal? = some why

/-- As long as no wait runs out, an exchange enacts the host's sending of its requests and the device's
session. -/
theorem enacts_of_path {requests : List Request} {session : Session n frameCapacity}
    {events : List Event} {s : Exchange n}
    (hpath : Path Step ⟨.before requests, [], [], .serving session⟩ events s)
    (hwaits : .host .timesOut ∉ events) : Enacts (sendInTurn requests) session events s := by
  have hhost : Host.Act.timesOut ∉ hostActs events := by
    intro hmem
    obtain ⟨event, hevent, hact⟩ := List.mem_filterMap.1 hmem
    cases event <;> cases hact
    exact hwaits hevent
  obtain ⟨hwritten, hresult⟩ := Host.Stage.run_remains_of_path (path_hostActs hpath) hhost
  obtain ⟨-, hrequested⟩ := written_of_answered hpath (answered_before requests)
  rw [Host.Stage.remains_before] at hwritten hresult
  rw [hrequested] at hwritten
  obtain ⟨-, hfed⟩ := taken_of_late hpath id
  have hbrings : (Script.plain (fed events)).Brings
      ((deviceActs events).flatMap Device.Act.heard ++ []) := by
    rw [hfed, List.append_nil]
    exact Script.brings_plain _
  obtain ⟨link, hlink, hsent, hserves⟩ := Device.Stage.serve_of_path (path_deviceActs hpath) hbrings
  obtain ⟨hflash, hrefused, htold⟩ := hserves.of_silence hlink
  have htoldSent : link.sent.toList = told events := hsent
  rw [htoldSent] at htold
  exact ⟨hwritten, hresult, htold, hflash, hrefused⟩

end Exchange

end SignedBoot
