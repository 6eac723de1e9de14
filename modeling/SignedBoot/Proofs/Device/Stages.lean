import SignedBoot.Proofs.Device.Handshake
import SignedBoot.Proofs.Device.UpdateSession
import SignedBoot.Proofs.Exchange.Path

/-!
# The device byte by byte

From power-on the device goes through stages: it listens, erases, answers, and serves a session. Every
byte it finds, every byte it sends and every piece of work in between takes it from one stage to the
next, and `Stage.Step` says how. Run on a script the device goes through these stages, sends the bytes
of its steps and takes the bytes of its steps from the script, and the stage it stops in says how the
run ended.
-/

namespace SignedBoot.Device

open Flash Layout Wire

variable {n : Nat} {ε : Type}

/-! ## Stages -/

/-- Where the device is, on a channel with failures `ε`. -/
inductive Stage (n : Nat) (ε : Type) where
  /-- The receiver has not been turned on. -/
  | asleep (m : Nor n)
  /-- Listening for a host, with `left` polls to go. -/
  | listening (left matched : Nat) (m : Nor n)
  /-- A host was heard, and the receiver is off. -/
  | erasing (m : Nor n)
  /-- Telling the host, with the receiver still off; `left` of the answer is still to go. -/
  | answering (left : Bytes) (m : Nor n)
  /-- Waiting for the next byte of a session. -/
  | serving (session : Session n frameCapacity)
  /-- A frame was executed. -/
  | acknowledging (session : Session n frameCapacity)
  /-- A frame was refused. -/
  | refusing (why : Refusal) (session : Session n frameCapacity)
  /-- Reset. -/
  | reset (cause : Reset ε) (m : Nor n)
  /-- No host: turning to the resident image. -/
  | booting (m : Nor n)

/-- What the device does in one step. -/
inductive Act (ε : Type) where
  /-- Polls, and finds a byte or none. -/
  | polls (found : Option UInt8)
  /-- Receives a byte for its session. -/
  | receives (b : UInt8)
  | tells (b : UInt8)
  /-- Does something that the host has no part in. -/
  | works
  /-- Finds that the channel fails. -/
  | fails (e : ε)
  deriving DecidableEq, Repr

namespace Act

/-- The byte that a step takes from the channel. -/
def heard : Act ε → Bytes
  | polls found => found.toList
  | receives b => [b]
  | _ => []

/-- The byte that a step puts on the channel. -/
def told : Act ε → Bytes
  | tells b => [b]
  | _ => []

end Act

namespace Stage

/-- One step of the device. -/
inductive Step : Stage n ε → Act ε → Stage n ε → Prop where
  | wakes {m : Nor n} : Step (asleep m) .works (listening pollLimit 0 m)
  | pollsNothing {left matched : Nat} {m : Nor n} :
    Step (listening (left + 1) matched m) (.polls none) (listening left matched m)
  | pollsByte {left matched : Nat} {m : Nor n} {b : UInt8}
    (h : advance matched b ≠ handshakeRequest.length) :
    Step (listening (left + 1) matched m) (.polls (some b)) (listening left (advance matched b) m)
  | pollsRequest {left matched : Nat} {m : Nor n} {b : UInt8}
    (h : advance matched b = handshakeRequest.length) :
    Step (listening (left + 1) matched m) (.polls (some b)) (erasing m)
  | pollFails {left matched : Nat} {m : Nor n} {e : ε} :
    Step (listening (left + 1) matched m) (.fails e) (booting m)
  | windowCloses {matched : Nat} {m : Nor n} : Step (listening 0 matched m) .works (booting m)
  | erases {m m' : Nor n} (h : (eraseBelow loaderBase).run m = (.ok (), m')) :
    Step (erasing m) .works (answering handshakeResponse m')
  | eraseFails {m m' : Nor n} {fault : Fault}
    (h : (eraseBelow loaderBase).run m = (.error fault, m')) :
    Step (erasing m) .works (reset (.eraseFailed fault) m')
  | answers {b : UInt8} {left : Bytes} {m : Nor n} :
    Step (answering (b :: left) m) (.tells b) (answering left m)
  | answerFails {b : UInt8} {left : Bytes} {m : Nor n} {e : ε} :
    Step (answering (b :: left) m) (.fails e) (reset (.answerLost e) m)
  | turnsOn {m : Nor n} :
    Step (answering [] m) .works (serving ⟨m, Assembler.empty frameCapacity⟩)
  | collects {s s' : Session n frameCapacity} {b : UInt8} (h : s.take b = (.quiet, s')) :
    Step (serving s) (.receives b) (serving s')
  | executes {s s' : Session n frameCapacity} {b : UInt8} (h : s.take b = (.executed, s')) :
    Step (serving s) (.receives b) (acknowledging s')
  | stops {s s' : Session n frameCapacity} {b : UInt8} (h : s.take b = (.stopped, s')) :
    Step (serving s) (.receives b) (reset (.sessionOver .stopped) s'.flash)
  | refuses {s s' : Session n frameCapacity} {b : UInt8} {why : Refusal}
    (h : s.take b = (.refused why, s')) : Step (serving s) (.receives b) (refusing why s')
  | receiveFails {s : Session n frameCapacity} {e : ε} :
    Step (serving s) (.fails e) (reset (.sessionOver (.linkLost e)) s.flash)
  | acknowledges {s : Session n frameCapacity} :
    Step (acknowledging s) (.tells Status.ack.toByte) (serving s)
  | acknowledgeFails {s : Session n frameCapacity} {e : ε} :
    Step (acknowledging s) (.fails e) (reset (.sessionOver (.linkLost e)) s.flash)
  | reports {s : Session n frameCapacity} {why : Refusal} {status : Status}
    (h : why.status? = some status) :
    Step (refusing why s) (.tells status.toByte) (reset (.sessionOver (.refused why)) s.flash)
  | reportFails {s : Session n frameCapacity} {why : Refusal} {status : Status} {e : ε}
    (h : why.status? = some status) :
    Step (refusing why s) (.fails e) (reset (.sessionOver (.refused why)) s.flash)
  | leaves {s : Session n frameCapacity} {why : Refusal} (h : why.status? = none) :
    Step (refusing why s) .works (reset (.sessionOver (.refused why)) s.flash)

/-- What the memory holds. -/
def flash : Stage n ε → Nor n
  | asleep m => m
  | listening _ _ m => m
  | erasing m => m
  | answering _ m => m
  | serving s => s.flash
  | acknowledging s => s.flash
  | refusing _ s => s.flash
  | reset _ m => m
  | booting m => m

/-- Why a frame was refused, if one was. -/
def refusal? : Stage n ε → Option Refusal
  | refusing why _ => some why
  | reset (.sessionOver (.refused why)) _ => some why
  | _ => none

end Stage

/-! ## Runs on a script -/

namespace Script

/-- The bytes among some events. -/
def bytes (events : List Event) : Bytes :=
  events.filterMap fun
    | .byte b => some b
    | _ => none

end Script

/-- The script goes from one state to another while the device goes from one stage to another: what
the steps tell is sent, what they hear is taken. -/
def Goes (s : Stage n Script.Failure) (link : Script) (t : Stage n Script.Failure)
    (link' : Script) : Prop :=
  ∃ acts, Path Stage.Step s acts t ∧ link'.sent.toList = link.sent.toList ++ acts.flatMap Act.told ∧
    Script.bytes link.incoming = acts.flatMap Act.heard ++ Script.bytes link'.incoming

section
variable {r s t : Stage n Script.Failure} {link link' link'' : Script}

theorem Goes.trans (hfirst : Goes r link s link') (hsecond : Goes s link' t link'') :
    Goes r link t link'' := by
  obtain ⟨first, hpath, hsent, hbytes⟩ := hfirst
  obtain ⟨second, hpath', hsent', hbytes'⟩ := hsecond
  refine ⟨first ++ second, hpath.append hpath', ?_, ?_⟩
  · rw [hsent', hsent, List.flatMap_append, List.append_assoc]
  · rw [hbytes, hbytes', List.flatMap_append, List.append_assoc]

theorem Goes.step {act : Act Script.Failure} (hstep : Stage.Step s act t)
    (hsent : link'.sent.toList = link.sent.toList ++ act.told)
    (hbytes : Script.bytes link.incoming = act.heard ++ Script.bytes link'.incoming) :
    Goes s link t link' :=
  ⟨[act], .single hstep, by simpa using hsent, by simpa using hbytes⟩

/-- Work that the host has no part in leaves the bytes of a script alone, and so does a failure. -/
theorem Goes.working (hstep : Stage.Step s .works t) (hsent : link'.sent = link.sent)
    (hbytes : Script.bytes link'.incoming = Script.bytes link.incoming) : Goes s link t link' := by
  refine .step hstep ?_ hbytes.symm
  rw [hsent]
  exact (List.append_nil _).symm

theorem Goes.failing (e : Script.Failure) (hstep : Stage.Step s (.fails e) t)
    (hsent : link'.sent = link.sent)
    (hbytes : Script.bytes link'.incoming = Script.bytes link.incoming) : Goes s link t link' := by
  refine .step hstep ?_ hbytes.symm
  rw [hsent]
  exact (List.append_nil _).symm

end

/-- Where the device stands after it has listened. -/
def Stage.listened (m : Nor n) : Except Script.Failure Bool → Stage n Script.Failure
  | .ok true => erasing m
  | _ => booting m

theorem goes_listen (left matched : Nat) (m : Nor n) (link : Script) :
    Goes (.listening left matched m) link (.listened m ((listen left matched).run link).1)
      ((listen left matched).run link).2 := by
  induction left generalizing matched link with
  | zero => exact .working .windowCloses rfl rfl
  | succ left ih =>
    rw [run_listen_succ, Script.run_poll]
    rcases hincoming : link.incoming with _ | ⟨event, rest⟩
    · have hpoll : Goes (.listening (left + 1) matched m) link (.listening left matched m)
          (link.polled (1000 * pollInterval) []) :=
        .step .pollsNothing (List.append_nil _).symm (by rw [hincoming]; rfl)
      exact hpoll.trans (ih matched _)
    cases event with
    | error =>
      have hpoll : Goes (.listening (left + 1) matched m) link (.booting m)
          (link.polled (1000 * pollInterval) rest) :=
        .failing .lineError .pollFails rfl (by rw [hincoming]; rfl)
      exact hpoll
    | idle =>
      have hpoll : Goes (.listening (left + 1) matched m) link (.listening left matched m)
          (link.polled (1000 * pollInterval) rest) :=
        .step .pollsNothing (List.append_nil _).symm (by rw [hincoming]; rfl)
      exact hpoll.trans (ih matched _)
    | byte b =>
      simp only [Script.nextPoll]
      by_cases hwhole : advance matched b = handshakeRequest.length
      · rw [if_pos hwhole]
        exact .step (.pollsRequest hwhole) (List.append_nil _).symm (by rw [hincoming]; rfl)
      · rw [if_neg hwhole]
        have hpoll : Goes (.listening (left + 1) matched m) link
            (.listening left (advance matched b) m) (link.polled (1000 * pollInterval) rest) :=
          .step (.pollsByte hwhole) (List.append_nil _).symm (by rw [hincoming]; rfl)
        exact hpoll.trans (ih _ _)

/-! ## Sending and receiving -/

theorem goes_send {s t : Stage n Script.Failure} {b : UInt8} {link link' : Script}
    (hsend : (Channel.send b : Attempt Script Script.Failure Unit).run link = (.ok (), link'))
    (hstep : Stage.Step s (.tells b) t) :
    Goes s link t link' ∧ link'.receiving = link.receiving := by
  rw [Script.run_send] at hsend
  rcases hquota : link.sendsLeft.spend? with _ | quota
  · rw [hquota] at hsend
    cases hsend
  · rw [hquota] at hsend
    cases hsend
    exact ⟨.step hstep Array.toList_push rfl, rfl⟩

theorem link_eq_of_send {b : UInt8} {link link' : Script} {e : Script.Failure}
    (hsend : (Channel.send b : Attempt Script Script.Failure Unit).run link = (.error e, link')) :
    link' = link := by
  rw [Script.run_send] at hsend
  rcases hquota : link.sendsLeft.spend? with _ | quota
  · rw [hquota] at hsend
    cases hsend
    rfl
  · rw [hquota] at hsend
    cases hsend

/-- Telling the host is complete, or fails behind a front part. -/
theorem goes_sendAll (bs : Bytes) (m : Nor n) (link : Script) :
    Goes (.answering bs m) link
      (match ((Channel.sendAll bs : Attempt Script Script.Failure Unit).run link).1 with
        | .ok () => .answering [] m
        | .error e => .reset (.answerLost e) m)
      ((Channel.sendAll bs : Attempt Script Script.Failure Unit).run link).2 := by
  induction bs generalizing link with
  | nil => exact ⟨[], .nil, (List.append_nil _).symm, rfl⟩
  | cons b bs ih =>
    rw [Script.sendAll_cons]
    rcases hsend : (Channel.send b : Attempt Script Script.Failure Unit).run link with ⟨e | ⟨⟩, link'⟩
    · obtain rfl := link_eq_of_send hsend
      rw [Attempt.run_bind_error hsend]
      exact .failing e .answerFails rfl rfl
    · rw [Attempt.run_bind_ok hsend]
      exact (goes_send hsend .answers).1.trans (ih link')

theorem bytes_nextByte (events : List Script.Event) :
    Script.bytes events = (Script.nextByte events).1.toOption.toList ++
      Script.bytes (Script.nextByte events).2 := by
  fun_induction Script.nextByte events with
  | case1 => rfl
  | case2 rest ih => exact ih
  | case3 rest => rfl
  | case4 b rest => rfl

section
variable {s t : Stage n Script.Failure} {link link' : Script} (hon : link.receiving = true)
include hon

theorem goes_receive {b : UInt8}
    (hreceive : (Channel.receive : Attempt Script Script.Failure UInt8).run link = (.ok b, link'))
    (hstep : Stage.Step s (.receives b) t) : Goes s link t link' ∧ link'.receiving = true := by
  rw [Script.run_receive hon] at hreceive
  obtain ⟨hb, rfl⟩ := Prod.mk.inj hreceive
  refine ⟨.step hstep (List.append_nil _).symm ?_, hon⟩
  have hbytes := bytes_nextByte link.incoming
  rw [hb] at hbytes
  exact hbytes

theorem goes_receive_error {e : Script.Failure}
    (hreceive : (Channel.receive : Attempt Script Script.Failure UInt8).run link = (.error e, link'))
    (hstep : Stage.Step s (.fails e) t) : Goes s link t link' := by
  rw [Script.run_receive hon] at hreceive
  obtain ⟨he, rfl⟩ := Prod.mk.inj hreceive
  refine .step hstep (List.append_nil _).symm ?_
  have hbytes := bytes_nextByte link.incoming
  rw [he] at hbytes
  exact hbytes

end

/-! ## Sessions and whole runs -/

/-- Where the device stands at the end of a session, before it has told the host why. -/
def Stage.ended (session : Session n frameCapacity) :
    SessionEnd Script.Failure → Stage n Script.Failure
  | .refused why => refusing why session
  | ending => reset (.sessionOver ending) session.flash

theorem goes_serve (s : Session n frameCapacity) (link : Script) (hon : link.receiving = true) :
    Goes (.serving s) link (.ended (serve s link).session (serve s link).ending)
      (serve s link).link := by
  fun_induction serve s link with
  | case1 s link e link1 hreceive => exact goes_receive_error hon hreceive .receiveFails
  | case2 s link b link1 hreceive s1 htake ih =>
    obtain ⟨hgoes, hon1⟩ := goes_receive hon hreceive (.collects htake)
    exact hgoes.trans (ih hon1)
  | case3 s link b link1 hreceive s1 htake => exact (goes_receive hon hreceive (.stops htake)).1
  | case4 s link b link1 hreceive why s1 htake =>
    exact (goes_receive hon hreceive (.refuses htake)).1
  | case5 s link b link1 hreceive s1 htake e link2 hsend =>
    obtain rfl := link_eq_of_send hsend
    obtain ⟨hgoes, -⟩ := goes_receive hon hreceive (.executes htake)
    exact hgoes.trans (.failing e .acknowledgeFails rfl rfl)
  | case6 s link b link1 hreceive s1 htake link2 hsend ih =>
    obtain ⟨hgoes, hon1⟩ := goes_receive hon hreceive (.executes htake)
    obtain ⟨hack, hkept⟩ := goes_send hsend .acknowledges
    exact (hgoes.trans hack).trans (ih (hkept.trans hon1))

/-- A device that resets has gone through the stages up to its reset. -/
def Resets (s : Stage n Script.Failure) (link : Script) (run : Run n Script Script.Failure) : Prop :=
  ∃ cause flash link', run = ⟨.reset cause, ⟨flash, link'⟩⟩ ∧ Goes s link (.reset cause flash) link'

theorem resets_receiveUpdate (m : Nor n) (link : Script) (hon : link.receiving = true) :
    Resets (.serving ⟨m, Assembler.empty frameCapacity⟩) link (receiveUpdate ⟨m, link⟩) := by
  have hserve := goes_serve ⟨m, Assembler.empty frameCapacity⟩ link hon
  obtain ⟨served, hserved⟩ : ∃ served, serve ⟨m, Assembler.empty frameCapacity⟩ link = served :=
    ⟨_, rfl⟩
  unfold receiveUpdate
  rw [hserved] at hserve ⊢
  rcases served with ⟨why | e | _, s, link1⟩
  · simp only
    rcases hstatus : why.status? with _ | status
    · exact ⟨_, _, _, rfl, hserve.trans (.working (.leaves hstatus) rfl rfl)⟩
    · refine ⟨_, _, _, rfl, hserve.trans ?_⟩
      show Goes (.refusing why s) link1 (.reset (.sessionOver (.refused why)) s.flash)
        ((Channel.send status.toByte : Attempt Script Script.Failure Unit).run link1).2
      rcases hsend : (Channel.send status.toByte : Attempt Script Script.Failure Unit).run link1
        with ⟨e | ⟨⟩, link2⟩
      · obtain rfl := link_eq_of_send hsend
        exact .failing e (.reportFails hstatus) rfl rfl
      · exact (goes_send hsend (.reports hstatus)).1
  · exact ⟨_, _, _, rfl, hserve⟩
  · exact ⟨_, _, _, rfl, hserve⟩

theorem resets_update (m : Nor n) (link : Script) : Resets (.erasing m) link (update ⟨m, link⟩) := by
  unfold update
  rcases herase : (eraseBelow loaderBase).run m with ⟨fault | ⟨⟩, m'⟩
  · exact ⟨_, _, _, rfl, .working (.eraseFails herase) rfl rfl⟩
  have hanswer : Goes (.erasing m) link (.answering handshakeResponse m') (link.setReceive false) :=
    .working (.erases herase) rfl rfl
  have htold := hanswer.trans (goes_sendAll handshakeResponse m' (link.setReceive false))
  have hoff : (Channel.setReceive false link : Script) = link.setReceive false := rfl
  simp only [hoff]
  rcases hsend : (Channel.sendAll handshakeResponse : Attempt Script Script.Failure Unit).run
    (link.setReceive false) with ⟨e | ⟨⟩, link1⟩
  · rw [hsend] at htold
    exact ⟨_, _, _, rfl, htold⟩
  · rw [hsend] at htold
    have hon : Goes (.answering [] m') link1 (.serving ⟨m', Assembler.empty frameCapacity⟩)
        (link1.setReceive true) := .working .turnsOn rfl rfl
    obtain ⟨cause, flash, link', hrun, hgoes⟩ : Resets (.serving ⟨m', Assembler.empty frameCapacity⟩)
      (link1.setReceive true) (receiveUpdate ⟨m', link1.setReceive true⟩) :=
      resets_receiveUpdate m' (link1.setReceive true) rfl
    exact ⟨cause, flash, link', hrun, (htold.trans hon).trans hgoes⟩

/-- Run from power-on, the device goes through the stages until it resets or turns to the resident
image. -/
theorem goes_powerOn (check : Check) (key : Vector UInt8 33) (m : Nor n) (link : Script) :
    Resets (.asleep m) link (powerOn check key ⟨m, link⟩) ∨
      ∃ link', Goes (.asleep m) link (.booting m) link' ∧
        powerOn check key ⟨m, link⟩ = verifyAndBoot check key ⟨m, link'⟩ := by
  have hwake : Goes (.asleep m) link (.listening pollLimit 0 m) (link.setReceive true) :=
    .working .wakes rfl rfl
  have hlisten := hwake.trans (goes_listen pollLimit 0 m (link.setReceive true))
  have hawait : awaitHandshake.run link =
      (listen pollLimit 0).run (link.setReceive true) := run_awaitHandshake link
  unfold powerOn
  rw [hawait]
  generalize (listen pollLimit 0).run (link.setReceive true) = listened at hlisten ⊢
  rcases listened with ⟨e | heard | _, link1⟩
  · exact Or.inr ⟨link1, hlisten, rfl⟩
  · exact Or.inr ⟨link1, hlisten, rfl⟩
  · obtain ⟨cause, flash, link', hrun, hgoes⟩ := resets_update m link1
    exact Or.inl ⟨cause, flash, link', hrun, hlisten.trans hgoes⟩

end SignedBoot.Device
