import Mathlib.Data.List.Basic
import Mathlib.Tactic.Common
import SignedBoot.Proofs.Device.BootDecision
import SignedBoot.Proofs.Device.Stages

/-!
# What a session makes of the bytes it receives

A session takes bytes off its script up to the one that ends it. Among the bytes it took are some
frames; all but the last of these were executed without an error and acknowledged, one status byte
each, and the last one is what ended it. If there is no such last one, then the line has failed, and
every byte that was there to be received has been taken.

So at the end of a whole run it can be read off the ending what the host has been told. It is told that
the application area is erased only if that is so, and a refused frame is the last it hears about.
-/

namespace SignedBoot.Device

open Flash Layout Wire

variable {n k : Nat}

/-! ## Executing frames in order -/

/-- Executes frames one after the other, up to the first that is refused or asks for a reset. -/
def handleFrames : List Frame → Attempt (Nor n) Refusal Reaction
  | [] => return .proceed
  | frame :: frames => do
    match ← handleFrame frame with
    | .proceed => handleFrames frames
    | .restart => return .restart

theorem run_handleFrames_cons {frame : Frame} {m m' : Nor n}
    (h : (handleFrame frame).run m = (.ok .proceed, m')) (frames : List Frame) :
    (handleFrames (frame :: frames)).run m = (handleFrames frames).run m' := by
  rw [handleFrames, Attempt.run_bind_ok h]

/-- What a session does after a frame. -/
def Outcome.ofResult : Except Refusal Reaction → Outcome
  | .ok .proceed => executed
  | .ok .restart => stopped
  | .error why => refused why

/-- A received byte completes no frame, or one that is executed at once. -/
theorem Session.take_cases {s s' : Session n k} {b : UInt8} {outcome : Outcome}
    (h : s.take b = (outcome, s')) :
    (outcome = .quiet ∧ s.assembler.feed b = (s'.assembler, none) ∧ s'.flash = s.flash) ∨
      ∃ frame result, outcome = .ofResult result ∧ s.assembler.feed b = (s'.assembler, some frame) ∧
        (handleFrame frame).run s.flash = (result, s'.flash) := by
  unfold Session.take at h
  rcases hfeed : s.assembler.feed b with ⟨assembler, _ | frame⟩
  · rw [hfeed] at h
    cases h
    exact Or.inl ⟨rfl, rfl, rfl⟩
  · rw [hfeed] at h
    refine Or.inr ⟨frame, ?_⟩
    simp only at h
    rcases hrun : (handleFrame frame).run s.flash with ⟨why | next, flash⟩
    · rw [hrun] at h
      cases h
      exact ⟨.error why, rfl, rfl, rfl⟩
    · rw [hrun] at h
      cases next with
      | proceed =>
        cases h
        exact ⟨.ok .proceed, rfl, rfl, rfl⟩
      | restart =>
        cases h
        exact ⟨.ok .restart, rfl, rfl, rfl⟩

/-- A byte that ends a session or is acknowledged has completed a frame. -/
theorem Session.frame_of_take {s s' : Session n k} {b : UInt8} (result : Except Refusal Reaction)
    (h : s.take b = (.ofResult result, s')) :
    ∃ frame, s.assembler.feed b = (s'.assembler, some frame) ∧
      (handleFrame frame).run s.flash = (result, s'.flash) := by
  have hinj : ∀ {x y}, Outcome.ofResult x = .ofResult y → x = y := by
    rintro (why | _ | _) (why' | _ | _) heq <;> cases heq <;> rfl
  rcases Session.take_cases h with ⟨hquiet, -⟩ | ⟨frame, result', houtcome, hfeed, hrun⟩
  · rcases result with why | _ | _ <;> cases hquiet
  · obtain rfl := hinj houtcome
    exact ⟨frame, hfeed, hrun⟩

/-! ## Bytes of a script -/

namespace Script

/-- The bytes that can be received, one after the other, before the line first fails. -/
def audible (link : Script) : Bytes :=
  if link.receiving then arriving link.incoming else []

/-- How the line fails behind them. -/
def failure (link : Script) : Failure :=
  if link.receiving then lastFailure link.incoming else .receiverOff

/-- The events up to some point of a script, the bytes among which are the given ones. -/
def Took (link : Script) (taken : Bytes) (link' : Script) : Prop :=
  ∃ front, link.incoming = front ++ link'.incoming ∧ bytes front = taken

theorem Took.trans {link link1 link2 : Script} {xs ys : Bytes} (hx : link.Took xs link1)
    (hy : link1.Took ys link2) : link.Took (xs ++ ys) link2 := by
  obtain ⟨front, hfront, rfl⟩ := hx
  obtain ⟨front', hfront', rfl⟩ := hy
  refine ⟨front ++ front', ?_, List.filterMap_append⟩
  rw [hfront, hfront', List.append_assoc]

/-- Waiting for a byte takes the events up to it, or up to the failure. -/
theorem exists_front_of_nextByte (events : List Event) :
    ∃ front, events = front ++ (nextByte events).2 ∧
      bytes front = (nextByte events).1.toOption.toList := by
  fun_induction nextByte events with
  | case1 => exact ⟨[], rfl, rfl⟩
  | case2 rest ih =>
    obtain ⟨front, hfront, hbytes⟩ := ih
    exact ⟨.idle :: front, congrArg (.idle :: ·) hfront, hbytes⟩
  | case3 rest => exact ⟨[.error], rfl, rfl⟩
  | case4 b rest => exact ⟨[.byte b], rfl, rfl⟩

/-- What a receiver that is on has received it has taken, and the same bytes are still to come behind
it. -/
theorem took_of_receive_eq_ok {link link' : Script} {b : UInt8}
    (h : (Channel.receive : Attempt Script Failure UInt8).run link = (.ok b, link')) :
    link.Took [b] link' ∧ link.audible = b :: link'.audible ∧ link'.failure = link.failure ∧
      link' = { link with incoming := link'.incoming } := by
  by_cases hon : link.receiving = true
  · obtain ⟨harriving, hfailure, hlink⟩ := of_receive_eq_ok hon h
    have hon' : link'.receiving = true := by rw [hlink]; exact hon
    refine ⟨?_, ?_, ?_, hlink⟩
    · obtain ⟨front, hfront, hbytes⟩ := exists_front_of_nextByte link.incoming
      rw [run_receive hon] at h
      obtain ⟨hb, rfl⟩ := Prod.mk.inj h
      rw [hb] at hbytes
      exact ⟨front, hfront, hbytes⟩
    · rw [audible, audible, if_pos hon, if_pos hon', harriving]
    · rw [failure, failure, if_pos hon, if_pos hon', hfailure]
  · have hoff : (Channel.receive : Attempt Script Failure UInt8).run link =
        (.error .receiverOff, link) := if_neg hon
    rw [hoff] at h
    cases h

end Script

/-! ## Sessions -/

/-- How a session on a script comes to its end, when it has taken some bytes and some frames have been
executed and acknowledged, which left the memory as it is. The frame that ends it, if one does, is the
last among the bytes. -/
inductive Ends (link : Script) (taken : Bytes) (acks : Nat) (m : Nor n) :
    Option Frame → SessionEnd Script.Failure → Nor n → Prop where
  | stopped {frame : Frame} {m' : Nor n} (h : (handleFrame frame).run m = (.ok .restart, m')) :
    Ends link taken acks m (some frame) .stopped m'
  | refused {frame : Frame} {why : Refusal} {m' : Nor n}
    (h : (handleFrame frame).run m = (.error why, m')) :
    Ends link taken acks m (some frame) (.refused why) m'
  /-- The frame was executed, but the line takes no more status bytes. -/
  | unacknowledged {frame : Frame} {m' : Nor n} (h : (handleFrame frame).run m = (.ok .proceed, m'))
    (hsends : link.sendsLeft = some acks) :
    Ends link taken acks m (some frame) (.linkLost .sendRefused) m'
  /-- Nothing more can be received. -/
  | lineLost (h : taken = link.audible) : Ends link taken acks m none (.linkLost link.failure) m

/-- The course of a session on a script: the bytes it took, the frames among them that were executed
and acknowledged, the memory after these, and the frame that ended it, if one did. -/
structure Trace (s : Session n k) (link : Script) (served : Served n k Script Script.Failure)
    (taken : Bytes) (executed : List Frame) (last : Option Frame) (m : Nor n) : Prop where
  /-- No event behind the end has been looked at. -/
  took : link.Took taken served.link
  frames : s.assembler.frames taken = executed ++ last.toList
  /-- The frame that ended the session is completed by the last byte taken. -/
  atEnd : last.isSome → ∃ front b, taken = front ++ [b] ∧ s.assembler.frames front = executed
  assembler : served.session.assembler = s.assembler.after taken
  executes : (handleFrames executed).run s.flash = (.ok .proceed, m)
  /-- One acknowledgement for every frame that was executed, and nothing else. -/
  sent : served.link.sent = link.sent ++ Array.replicate executed.length Status.ack.toByte
  sendsLeft : served.link.sendsLeft = link.sendsLeft.use executed.length
  ends : Ends link taken executed.length m last served.ending served.session.flash

/-- A byte in front changes nothing about the end of a session. -/
theorem Ends.cons {link link1 : Script} {b : UInt8} {taken : Bytes} {acks acks1 : Nat} {m m' : Nor n}
    {last : Option Frame} {ending : SessionEnd Script.Failure}
    (haudible : link.audible = b :: link1.audible) (hfailure : link1.failure = link.failure)
    (hsends : link1.sendsLeft = some acks1 → link.sendsLeft = some acks)
    (h : Ends link1 taken acks1 m last ending m') :
    Ends link (b :: taken) acks m last ending m' := by
  cases h with
  | stopped hrun => exact .stopped hrun
  | refused hrun => exact .refused hrun
  | unacknowledged hrun hleft => exact .unacknowledged hrun (hsends hleft)
  | lineLost hall =>
    rw [hfailure]
    exact .lineLost (by rw [haudible, hall])

/-- A byte that completes nothing is only taken. -/
theorem Trace.quiet {s s1 : Session n k} {link link1 : Script} {b : UInt8}
    {served : Served n k Script Script.Failure} {taken : Bytes} {executed : List Frame}
    {last : Option Frame} {m : Nor n}
    (hreceive : (Channel.receive : Attempt Script Script.Failure UInt8).run link = (.ok b, link1))
    (htake : s.take b = (.quiet, s1)) (h : Trace s1 link1 served taken executed last m) :
    Trace s link served (b :: taken) executed last m := by
  obtain ⟨htook, haudible, hfailure, hlink⟩ := Script.took_of_receive_eq_ok hreceive
  obtain ⟨hfeed, hflash⟩ : s.assembler.feed b = (s1.assembler, none) ∧ s1.flash = s.flash := by
    rcases Session.take_cases htake with ⟨-, hfeed, hflash⟩ | ⟨frame, result, houtcome, -⟩
    · exact ⟨hfeed, hflash⟩
    · rcases result with why | _ | _ <;> cases houtcome
  have hframes : ∀ bs, s.assembler.frames (b :: bs) = s1.assembler.frames bs := fun bs => by
    rw [Assembler.frames_cons, hfeed]
    rfl
  refine ⟨htook.trans h.took, ?_, ?_, ?_, ?_, ?_, ?_, ?_⟩
  · rw [hframes]
    exact h.frames
  · intro hlast
    obtain ⟨front, b', rfl, hfront⟩ := h.atEnd hlast
    exact ⟨b :: front, b', rfl, (hframes front).trans hfront⟩
  · rw [Assembler.after_cons, hfeed]
    exact h.assembler
  · rw [← hflash]
    exact h.executes
  · rw [h.sent, hlink]
  · rw [h.sendsLeft, hlink]
  · exact h.ends.cons haudible hfailure fun hleft => by rw [← hleft, hlink]

/-- A frame that was executed and acknowledged comes before all others. -/
theorem Trace.acknowledged {s s1 : Session n k} {link link1 link2 : Script} {b : UInt8}
    {served : Served n k Script Script.Failure} {taken : Bytes} {executed : List Frame}
    {last : Option Frame} {m : Nor n}
    (hreceive : (Channel.receive : Attempt Script Script.Failure UInt8).run link = (.ok b, link1))
    (htake : s.take b = (.executed, s1))
    (hsend : (Channel.send Status.ack.toByte : Attempt Script Script.Failure Unit).run link1 =
      (.ok (), link2))
    (h : Trace s1 link2 served taken executed last m) :
    ∃ frame, Trace s link served (b :: taken) (frame :: executed) last m := by
  obtain ⟨htook, haudible, hfailure, hlink⟩ := Script.took_of_receive_eq_ok hreceive
  obtain ⟨frame, hfeed, hrun⟩ := Session.frame_of_take (.ok .proceed) htake
  have hframes : ∀ bs, s.assembler.frames (b :: bs) = frame :: s1.assembler.frames bs := fun bs => by
    rw [Assembler.frames_cons, hfeed]
    rfl
  obtain ⟨quota, hquota, hlink2⟩ : ∃ quota, link1.sendsLeft.spend? = some quota ∧
      link2 = { link1 with sent := link1.sent.push Status.ack.toByte, sendsLeft := quota } := by
    rw [Script.run_send] at hsend
    rcases hquota : link1.sendsLeft.spend? with _ | quota
    · rw [hquota] at hsend
      cases hsend
    · rw [hquota] at hsend
      cases hsend
      exact ⟨quota, rfl, rfl⟩
  have hsame : link2.Took taken served.link → link1.Took taken served.link := by
    rw [hlink2]
    exact id
  have hleft1 : link.sendsLeft = link1.sendsLeft := by rw [hlink]
  refine ⟨frame, htook.trans (hsame h.took), ?_, ?_, ?_, ?_, ?_, ?_, ?_⟩
  · rw [hframes, h.frames]
    rfl
  · intro hlast
    obtain ⟨front, b', rfl, hfront⟩ := h.atEnd hlast
    exact ⟨b :: front, b', rfl, (hframes front).trans (congrArg (frame :: ·) hfront)⟩
  · rw [Assembler.after_cons, hfeed]
    exact h.assembler
  · rw [run_handleFrames_cons hrun]
    exact h.executes
  · rw [h.sent, hlink2, hlink]
    apply Array.ext'
    simp [List.replicate_succ]
  · rw [h.sendsLeft, hlink2, hleft1]
    exact Quota.use_of_spend?_eq_some hquota _
  · have haudible2 : link.audible = b :: link2.audible := by rw [haudible, hlink2]; rfl
    have hfailure2 : link2.failure = link.failure := by rw [← hfailure, hlink2]; rfl
    refine h.ends.cons haudible2 hfailure2 fun hleft => ?_
    have hquota2 : quota = some executed.length := by rw [← hleft, hlink2]
    rw [hquota2] at hquota
    rw [hleft1, List.length_cons]
    exact Quota.spend?_eq_some_some_iff.1 hquota

/-- A byte with which a session ends has completed the last frame. -/
theorem Trace.ended {s s1 : Session n k} {link link1 link2 : Script} {b : UInt8}
    {ending : SessionEnd Script.Failure} {frame : Frame}
    (hreceive : (Channel.receive : Attempt Script Script.Failure UInt8).run link = (.ok b, link1))
    (hfeed : s.assembler.feed b = (s1.assembler, some frame)) (hlink2 : link2 = link1)
    (hends : Ends link [b] 0 s.flash (some frame) ending s1.flash) :
    Trace s link ⟨ending, s1, link2⟩ [b] [] (some frame) s.flash := by
  obtain ⟨htook, -, -, hlink⟩ := Script.took_of_receive_eq_ok hreceive
  subst hlink2
  refine ⟨htook, ?_, fun _ => ⟨[], b, rfl, rfl⟩, ?_, rfl, ?_, ?_, hends⟩
  · rw [Assembler.frames_cons, hfeed]
    rfl
  · rw [Assembler.after_cons, hfeed]
    rfl
  · show link2.sent = link.sent ++ Array.replicate 0 Status.ack.toByte
    rw [hlink]
    simp
  · show link2.sendsLeft = link.sendsLeft.use 0
    rw [hlink, Quota.use_zero]

end SignedBoot.Device
