import SignedBoot.Device.SerialLine
import SignedBoot.Proofs.Device.Stages
import SignedBoot.Proofs.Host.Stages

/-!
# Turning the receiver back on

On a serial line without a receiver switch the bytes that arrive during the erase sequence pile up,
and turning the receiver on drops what is there. The host is told first, so a host that is quick
enough gets bytes of its first request into the pile. `drain` looks for a byte and drops it until it
finds none: what arrives before that moment is dropped, what arrives after it is received.

Here the steps between the handshake and the session are taken one at a time, with the hardware's own
operations on its queue, and bytes arrive in between at any time.
-/

namespace SignedBoot

open Flash Layout Wire

namespace Device

/-! ## The receive queue -/

namespace Uart

theorem checkReady_of_readReady {found : Except Failure Bool} {u u' : Uart}
    (h : readReady.run u = (found, u')) : checkReady u.incoming = (found, u'.incoming) := by
  cases h
  rfl

theorem nextByte_of_read {found : Except Failure (Option UInt8)} {u u' : Uart}
    (h : read.run u = (found, u')) : nextByte u.incoming = (found, u'.incoming) := by
  cases h
  rfl

/-- On a queue of bytes a check finds whether there is one, and takes none. -/
theorem checkReady_map_byte {bs : Bytes} {found : Bool} {rest : List Event}
    (h : checkReady (bs.map .byte) = (.ok found, rest)) :
    rest = bs.map .byte ∧ (found = false → bs = []) := by
  cases bs with
  | nil =>
    cases h
    exact ⟨rfl, fun _ => rfl⟩
  | cons b bs =>
    cases h
    exact ⟨rfl, fun hfound => absurd hfound (by simp)⟩

theorem nextByte_map_byte {bs : Bytes} {b : UInt8} {rest : List Event}
    (h : nextByte (bs.map .byte) = (.ok (some b), rest)) :
    ∃ more, bs = b :: more ∧ rest = more.map .byte := by
  cases bs with
  | nil => cases h
  | cons b bs =>
    cases h
    exact ⟨bs, rfl, rfl⟩

/-- What a receive queue holds behind the first moment at which nothing can be read. -/
def quietRest : List Event → List Event
  | [] => []
  | .byte _ :: rest => quietRest rest
  | _ :: rest => rest

theorem quietRest_of_ready {events ready rest : List Event} {found : Except Failure (Option UInt8)}
    (hready : checkReady events = (.ok true, ready)) (hread : nextByte ready = (found, rest)) :
    quietRest events =
      match found with
      | .ok (some _) => quietRest rest
      | _ => rest := by
  rcases events with _ | ⟨_ | _ | _ | _ | _, events⟩ <;> cases hready <;> cases hread <;> rfl

theorem quietRest_of_not_ready {events rest : List Event} {found : Except Failure Bool}
    (hready : checkReady events = (found, rest)) (hfound : found ≠ .ok true) :
    quietRest events = rest := by
  rcases events with _ | ⟨_ | _ | _ | _ | _, events⟩ <;> cases hready <;>
    first | exact absurd rfl hfound | rfl

end Uart

/-- Dropping reads up to the first moment at which nothing can be read. -/
theorem SerialLine.drain_incoming (u : Uart) : (drain u).incoming = Uart.quietRest u.incoming := by
  fun_induction drain u with
  | case1 u u1 hready b u2 hread ih =>
    rw [ih, Uart.quietRest_of_ready (Uart.checkReady_of_readReady hready)
      (Uart.nextByte_of_read hread)]
  | case2 u u1 hready u2 hread =>
    rw [Uart.quietRest_of_ready (Uart.checkReady_of_readReady hready) (Uart.nextByte_of_read hread)]
  | case3 u u1 hready e u2 hread =>
    rw [Uart.quietRest_of_ready (Uart.checkReady_of_readReady hready) (Uart.nextByte_of_read hread)]
  | case4 u u1 hready =>
    rw [Uart.quietRest_of_not_ready (Uart.checkReady_of_readReady hready) (by simp)]
  | case5 u e u1 hready =>
    rw [Uart.quietRest_of_not_ready (Uart.checkReady_of_readReady hready) (by simp)]

theorem SerialLine.drain_of_not_ready {u u' : Uart} (hready : Uart.readReady.run u = (.ok false, u')) :
    drain u = u' := by
  rw [drain]
  split
  · next heq => cases heq.symm.trans hready
  · next heq =>
    cases heq.symm.trans hready
    rfl
  · next heq => cases heq.symm.trans hready

theorem SerialLine.drain_of_ready {u ready rest : Uart} {b : UInt8}
    (hready : Uart.readReady.run u = (.ok true, ready))
    (hread : Uart.read.run ready = (.ok (some b), rest)) : drain u = drain rest := by
  rw [drain]
  split
  · next heq =>
    cases heq.symm.trans hready
    split
    · next heq =>
      cases heq.symm.trans hread
      rfl
    · next heq => cases heq.symm.trans hread
    · next heq => cases heq.symm.trans hread
  · next heq => cases heq.symm.trans hready
  · next heq => cases heq.symm.trans hready

theorem SerialLine.read_of_receive {b : UInt8} {s s' : SerialLine}
    (h : receive.run s = (.ok b, s')) : Uart.read.run s.uart = (.ok (some b), s'.uart) := by
  obtain ⟨found, t, hread, h⟩ := Attempt.run_bind_eq_ok_iff.1 h
  cases found with
  | none => cases h
  | some b' =>
    cases h
    exact onUart_eq_ok hread

theorem SerialLine.receive_of_byte {b : UInt8} {rest : List Uart.Event} {s : SerialLine}
    (h : s.uart.incoming = .byte b :: rest) :
    ∃ s', receive.run s = (.ok b, s') ∧ s'.uart.incoming = rest := by
  obtain ⟨uart, on⟩ := s
  obtain ⟨incoming⟩ := uart
  obtain rfl : incoming = .byte b :: rest := h
  exact ⟨_, rfl, rfl⟩

theorem SerialLine.onUart_receiving {α : Type} {op : Attempt Uart Uart.Failure α} {a : α}
    {s s' : SerialLine} (h : (onUart op).run s = (.ok a, s')) : s'.receiving = s.receiving := by
  simp only [onUart] at h
  split at h
  · cases h
    rfl
  · cases h

/-- On a serial line the session of an update gets what arrives behind the first quiet moment after
the answer. -/
theorem update_eq_receiveUpdate {m m' : Nor flashSize} {line told : SerialLine}
    (herase : (eraseBelow loaderBase).run m = (.ok (), m'))
    (hsend : (SerialLine.sendAll handshakeResponse).run (line.setReceive false) = (.ok (), told)) :
    ∃ heard : SerialLine, heard.uart.incoming = Uart.quietRest line.uart.incoming ∧
      (update ⟨m, line⟩ : Run flashSize SerialLine SerialLine.Failure) = receiveUpdate ⟨m', heard⟩ := by
  have hincoming : told.uart.incoming = (line.setReceive false).uart.incoming :=
    SerialLine.sendAll_incoming hsend
  have hoff : told.receiving = false := SerialLine.onUart_receiving hsend
  refine ⟨told.setReceive true, ?_, ?_⟩
  · have hdrain : (told.setReceive true).uart = SerialLine.drain told.uart := by
      unfold SerialLine.setReceive
      rw [hoff]
      rfl
    rw [hdrain, SerialLine.drain_incoming, hincoming]
    rfl
  · have hanswer : (Channel.sendAll handshakeResponse).run (Channel.setReceive false line) =
        (Except.ok (), told) := hsend
    unfold update
    rw [herase]
    simp only [hanswer]
    rfl

/-! ## The steps of the handover -/

end Device

/-- Where the device is between the handshake and its session. -/
inductive Handover.Phase where
  /-- A host was heard. -/
  | heard
  /-- The receiver counts as off. -/
  | erasing
  /-- Telling the host; `left` of the answer is still to go. -/
  | answering (left : Bytes)
  /-- Turning the receiver on: looking for a byte to drop. -/
  | checking
  /-- There is one. -/
  | dropping
  /-- The receiver is on. -/
  | receiving

/-- A host and a device on a serial line, between the handshake and the session. -/
structure Handover where
  host : Host.Stage
  /-- Bytes for the device that have not reached its receive queue, the next one first. -/
  toDevice : Bytes
  /-- Bytes for the host, the next one first. -/
  toHost : Bytes
  line : Device.SerialLine
  phase : Handover.Phase

namespace Handover

open Host Device

inductive Event where
  | host (act : Host.Act)
  /-- A byte reaches the receive queue. -/
  | arrives (b : UInt8)
  | turnsOff
  | erases
  | tells (b : UInt8)
  | turnsOn
  /-- The device looks for a byte to drop. -/
  | checks (found : Bool)
  | drops (b : UInt8)
  | receives (b : UInt8)

/-- One step of one side, or the arrival of a byte. What the memory holds has no part in it. -/
inductive Step (s : Handover) : Event → Handover → Prop where
  | host {act : Host.Act} {host' : Host.Stage} {rest : Bytes} (h : s.host.Step act host')
    (hheard : s.toHost = act.heard ++ rest) :
    Step s (.host act) { s with host := host', toDevice := s.toDevice ++ act.written, toHost := rest }
  | arrives {b : UInt8} {rest : Bytes} (h : s.toDevice = b :: rest) :
    Step s (.arrives b)
      { s with
        toDevice := rest
        line.uart.incoming := s.line.uart.incoming ++ [.byte b] }
  | turnsOff (h : s.phase = .heard) :
    Step s .turnsOff { s with line := s.line.setReceive false, phase := .erasing }
  | erases (h : s.phase = .erasing) :
    Step s .erases { s with phase := .answering handshakeResponse }
  | tells {b : UInt8} {left : Bytes} (h : s.phase = .answering (b :: left)) :
    Step s (.tells b) { s with toHost := s.toHost ++ [b], phase := .answering left }
  | turnsOn (h : s.phase = .answering []) : Step s .turnsOn { s with phase := .checking }
  | findsByte {uart : Uart} (h : s.phase = .checking)
    (hready : Uart.readReady.run s.line.uart = (.ok true, uart)) :
    Step s (.checks true) { s with line.uart := uart, phase := .dropping }
  | findsNone {uart : Uart} (h : s.phase = .checking)
    (hready : Uart.readReady.run s.line.uart = (.ok false, uart)) :
    Step s (.checks false) { s with line := ⟨uart, true⟩, phase := .receiving }
  | drops {b : UInt8} {uart : Uart} (h : s.phase = .dropping)
    (hread : Uart.read.run s.line.uart = (.ok (some b), uart)) :
    Step s (.drops b) { s with line.uart := uart, phase := .checking }
  | receives {b : UInt8} {line : SerialLine} (h : s.phase = .receiving)
    (hreceive : SerialLine.receive.run s.line = (.ok b, line)) :
    Step s (.receives b) { s with line }

/-- If nothing arrives meanwhile, the steps that turn the receiver on do what `setReceive` does. -/
theorem path_setReceive {s : Handover} (hphase : s.phase = .checking)
    (hoff : s.line.receiving = false) {queue : Bytes}
    (hqueue : s.line.uart.incoming = queue.map .byte) :
    Path Step s (queue.flatMap (fun b => [.checks true, .drops b]) ++ [.checks false])
      { s with line := s.line.setReceive true, phase := .receiving } := by
  have hset : s.line.setReceive true = ⟨SerialLine.drain s.line.uart, true⟩ := by
    unfold SerialLine.setReceive
    rw [hoff]
    rfl
  rw [hset]
  clear hset hoff
  induction queue generalizing s with
  | nil =>
    obtain ⟨uart, hready⟩ : ∃ uart, Uart.readReady.run s.line.uart = (.ok false, uart) := by
      simp only [Uart.readReady, hqueue]
      exact ⟨_, rfl⟩
    rw [SerialLine.drain_of_not_ready hready]
    exact .single (.findsNone hphase hready)
  | cons b queue ih =>
    obtain ⟨ready, hready, hsame⟩ : ∃ uart, Uart.readReady.run s.line.uart = (.ok true, uart) ∧
        uart.incoming = (b :: queue).map .byte := by
      simp only [Uart.readReady, hqueue]
      exact ⟨_, rfl, rfl⟩
    obtain ⟨rest, hread, hrest⟩ : ∃ uart, Uart.read.run ready = (.ok (some b), uart) ∧
        uart.incoming = queue.map .byte := by
      simp only [Uart.read, hsame]
      exact ⟨_, rfl, rfl⟩
    rw [SerialLine.drain_of_ready hready hread]
    have hnext : Path Step { s with line.uart := rest, phase := .checking } _ _ := ih rfl hrest
    exact .cons (.findsByte hphase hready) (.cons (.drops rfl hread) hnext)

/-- Whether the receiver counts as off between the handshake and the session. -/
def Off (s : Handover) : Prop :=
  s.phase ≠ .heard → s.phase ≠ .receiving → s.line.receiving = false

/-- From the start of the erase sequence until it is turned on, the receiver counts as off. -/
theorem off_of_path {r s : Handover} {events : List Event} (hpath : Path Step r events s)
    (hheard : r.phase = .heard) : Off s := by
  induction hpath with
  | nil => exact fun hne => absurd hheard hne
  | snoc _ hstep ih =>
    cases hstep with
    | host => exact ih
    | arrives => exact ih
    | turnsOff => exact fun _ _ => rfl
    | erases hphase => exact fun _ _ => ih (by simp [hphase]) (by simp [hphase])
    | tells hphase => exact fun _ _ => ih (by simp [hphase]) (by simp [hphase])
    | turnsOn hphase => exact fun _ _ => ih (by simp [hphase]) (by simp [hphase])
    | findsByte hphase => exact fun _ _ => ih (by simp [hphase]) (by simp [hphase])
    | findsNone => exact fun _ hne => absurd rfl hne
    | drops hphase => exact fun _ _ => ih (by simp [hphase]) (by simp [hphase])
    | receives hphase => exact fun _ hne => absurd hphase hne

/-! ## What has happened -/

/-- The bytes of start sequences that the host has written. -/
def knocked (events : List Event) : Bytes :=
  events.filterMap fun
    | .host (.knocks b) => some b
    | _ => none

/-- The bytes of requests that the host has written. -/
def requested (events : List Event) : Bytes :=
  events.filterMap fun
    | .host (.sends b) => some b
    | _ => none

/-- The bytes of the answer that the device has sent. -/
def told (events : List Event) : Bytes :=
  events.filterMap fun
    | .tells b => some b
    | _ => none

/-- The bytes that have reached the receive queue. -/
def arrived (events : List Event) : Bytes :=
  events.filterMap fun
    | .arrives b => some b
    | _ => none

/-- The bytes that the device has dropped. -/
def dropped (events : List Event) : Bytes :=
  events.filterMap fun
    | .drops b => some b
    | _ => none

/-- The bytes that the session has received. -/
def received (events : List Event) : Bytes :=
  events.filterMap fun
    | .receives b => some b
    | _ => none

section
variable (events : List Event) (event : Event)

theorem knocked_concat : knocked (events ++ [event]) = knocked events ++ knocked [event] :=
  List.filterMap_append

theorem requested_concat :
    requested (events ++ [event]) = requested events ++ requested [event] :=
  List.filterMap_append

theorem told_concat : told (events ++ [event]) = told events ++ told [event] :=
  List.filterMap_append

theorem arrived_concat : arrived (events ++ [event]) = arrived events ++ arrived [event] :=
  List.filterMap_append

theorem dropped_concat : dropped (events ++ [event]) = dropped events ++ dropped [event] :=
  List.filterMap_append

theorem received_concat : received (events ++ [event]) = received events ++ received [event] :=
  List.filterMap_append

end

/-! ## The device's side -/

/-- What is still to be told of the answer. -/
def Phase.untold : Phase → Bytes
  | .heard => handshakeResponse
  | .erasing => handshakeResponse
  | .answering left => left
  | _ => []

/-- What has been told, dropped and received when the device stands in a phase, with the given bytes
in its receive queue; `queue` was there at the start. -/
structure Stands (queue : Bytes) (events : List Event) (waiting : Bytes) (phase : Phase) : Prop where
  telling : told events ++ phase.untold = handshakeResponse
  early : phase ≠ .receiving → received events = []
  /-- Bytes were dropped until the device found none, and have been kept since. -/
  late : phase = .receiving → ∃ before after, events = before ++ .checks false :: after ∧
    dropped events = queue ++ arrived before ∧ received events ++ waiting = arrived after

/-- The receive queue holds the bytes that arrived and were neither dropped nor received. -/
structure Waits (queue : Bytes) (events : List Event) (waiting : Bytes) (s : Handover) : Prop where
  incoming : s.line.uart.incoming = waiting.map .byte
  all : queue ++ arrived events = dropped events ++ received events ++ waiting
  stands : Stands queue events waiting s.phase

section
variable {queue waiting : Bytes} {events : List Event} {phase phase' : Phase} {event : Event}

/-- An event that neither tells anything nor moves a byte to or from the queue changes nothing. -/
theorem Stands.quiet (h : Stands queue events waiting phase) (htold : told [event] = [])
    (harrived : arrived [event] = []) (hdropped : dropped [event] = [])
    (hreceived : received [event] = []) : Stands queue (events ++ [event]) waiting phase := by
  refine ⟨?_, ?_, ?_⟩
  · rw [told_concat, htold, List.append_nil]
    exact h.telling
  · rw [received_concat, hreceived, List.append_nil]
    exact h.early
  · intro hphase
    obtain ⟨before, after, rfl, hdrop, hafter⟩ := h.late hphase
    refine ⟨before, after ++ [event], ?_, ?_, ?_⟩
    · rw [List.append_assoc, List.cons_append]
    · rw [dropped_concat, hdropped, List.append_nil, hdrop]
    · rw [received_concat, hreceived, List.append_nil, arrived_concat, harrived, List.append_nil,
        hafter]

/-- Before it receives, the device can go on without telling anything. -/
theorem Stands.move (h : Stands queue events waiting phase) (huntold : phase'.untold = phase.untold)
    (hphase : phase ≠ .receiving) (hphase' : phase' ≠ .receiving) :
    Stands queue events waiting phase' := by
  refine ⟨?_, fun _ => h.early hphase, fun heq => absurd heq hphase'⟩
  rw [huntold]
  exact h.telling

end

theorem all_quiet {queue waiting : Bytes} {events : List Event} {event : Event}
    (h : queue ++ arrived events = dropped events ++ received events ++ waiting)
    (harrived : arrived [event] = []) (hdropped : dropped [event] = [])
    (hreceived : received [event] = []) :
    queue ++ arrived (events ++ [event]) =
      dropped (events ++ [event]) ++ received (events ++ [event]) ++ waiting := by
  rw [arrived_concat, dropped_concat, received_concat, harrived, hdropped, hreceived,
    List.append_nil, List.append_nil, List.append_nil]
  exact h

section
variable {queue waiting : Bytes} {events : List Event} {s : Handover}
  (h : Waits queue events waiting s)
include h

theorem Waits.arrives (b : UInt8) (rest : Bytes) :
    Waits queue (events ++ [.arrives b]) (waiting ++ [b])
      { s with
        toDevice := rest
        line.uart.incoming := s.line.uart.incoming ++ [.byte b] } := by
  have harrived : arrived (events ++ [.arrives b]) = arrived events ++ [b] := arrived_concat _ _
  have hdropped : dropped (events ++ [.arrives b]) = dropped events :=
    trace_quiet (dropped_concat _ _) rfl
  have hreceived : received (events ++ [.arrives b]) = received events :=
    trace_quiet (received_concat _ _) rfl
  have htold : told (events ++ [.arrives b]) = told events :=
    trace_quiet (told_concat _ _) rfl
  refine ⟨?_, ?_, ?_, ?_, ?_⟩
  · rw [List.map_append, h.incoming]
    rfl
  · rw [harrived, hdropped, hreceived, ← List.append_assoc, h.all, List.append_assoc]
  · rw [htold]
    exact h.stands.telling
  · rw [hreceived]
    exact h.stands.early
  · intro hphase
    obtain ⟨before, after, hevents, hdrop, hafter⟩ := h.stands.late hphase
    refine ⟨before, after ++ [.arrives b], ?_, ?_, ?_⟩
    · rw [hevents, List.append_assoc, List.cons_append]
    · rw [hdropped, hdrop]
    · rw [hreceived, arrived_concat, ← hafter, List.append_assoc]
      rfl

theorem Waits.tells {b : UInt8} {left : Bytes} (hphase : s.phase = .answering (b :: left)) :
    Waits queue (events ++ [.tells b]) waiting
      { s with toHost := s.toHost ++ [b], phase := .answering left } := by
  have hstands := h.stands
  rw [hphase] at hstands
  refine ⟨h.incoming, all_quiet h.all rfl rfl rfl, ?_, ?_, fun heq => by cases heq⟩
  · have htelling : told events ++ b :: left = handshakeResponse := hstands.telling
    rw [told_concat, ← htelling, List.append_cons (told events)]
    rfl
  · intro _
    rw [received_concat, hstands.early (by simp)]
    rfl

theorem Waits.findsByte {uart : Uart} (hphase : s.phase = .checking)
    (hready : Uart.readReady.run s.line.uart = (.ok true, uart)) :
    Waits queue (events ++ [.checks true]) waiting
      { s with line.uart := uart, phase := .dropping } := by
  have hstands := h.stands
  rw [hphase] at hstands
  have hcheck := Uart.checkReady_of_readReady hready
  rw [h.incoming] at hcheck
  exact ⟨(Uart.checkReady_map_byte hcheck).1, all_quiet h.all rfl rfl rfl,
    (hstands.quiet rfl rfl rfl rfl).move rfl (by simp) (by simp)⟩

/-- When no byte is found, just those have been dropped that were there before. -/
theorem Waits.findsNone {uart : Uart} (hphase : s.phase = .checking)
    (hready : Uart.readReady.run s.line.uart = (.ok false, uart)) :
    Waits queue (events ++ [.checks false]) waiting
      { s with line := ⟨uart, true⟩, phase := .receiving } := by
  have hstands := h.stands
  rw [hphase] at hstands
  have hcheck := Uart.checkReady_of_readReady hready
  rw [h.incoming] at hcheck
  obtain ⟨hincoming, hnone⟩ := Uart.checkReady_map_byte hcheck
  obtain rfl := hnone rfl
  have hreceived := hstands.early (by simp)
  refine ⟨hincoming, all_quiet h.all rfl rfl rfl, ?_, fun hne => absurd rfl hne, fun _ => ?_⟩
  · exact (hstands.quiet rfl rfl rfl rfl).telling
  · refine ⟨events, [], rfl, ?_, ?_⟩
    · rw [dropped_concat, h.all, hreceived, List.append_nil, List.append_nil]
      exact List.append_nil _
    · rw [received_concat, hreceived]
      rfl

theorem Waits.drops {b : UInt8} {uart : Uart} (hphase : s.phase = .dropping)
    (hread : Uart.read.run s.line.uart = (.ok (some b), uart)) :
    ∃ rest, Waits queue (events ++ [.drops b]) rest
      { s with line.uart := uart, phase := .checking } := by
  have hstands := h.stands
  rw [hphase] at hstands
  have hnext := Uart.nextByte_of_read hread
  rw [h.incoming] at hnext
  obtain ⟨rest, rfl, hincoming⟩ := Uart.nextByte_map_byte hnext
  have hreceived : received (events ++ [.drops b]) = [] := by
    rw [received_concat, hstands.early (by simp)]
    rfl
  refine ⟨rest, hincoming, ?_, ?_, fun _ => hreceived, fun heq => by cases heq⟩
  · have harrived : arrived (events ++ [.drops b]) = arrived events :=
      trace_quiet (arrived_concat _ _) rfl
    have hall := h.all
    rw [hstands.early (by simp), List.append_nil] at hall
    rw [hreceived, harrived, dropped_concat, List.append_nil, List.append_assoc]
    exact hall
  · have htold : told (events ++ [.drops b]) = told events := trace_quiet (told_concat _ _) rfl
    rw [htold]
    exact hstands.telling

theorem Waits.receives {b : UInt8} {line : SerialLine} (hphase : s.phase = .receiving)
    (hreceive : SerialLine.receive.run s.line = (.ok b, line)) :
    ∃ rest, Waits queue (events ++ [.receives b]) rest { s with line } := by
  have hnext := Uart.nextByte_of_read (SerialLine.read_of_receive hreceive)
  rw [h.incoming] at hnext
  obtain ⟨rest, rfl, hincoming⟩ := Uart.nextByte_map_byte hnext
  have harrived : arrived (events ++ [.receives b]) = arrived events :=
    trace_quiet (arrived_concat _ _) rfl
  have hdropped : dropped (events ++ [.receives b]) = dropped events :=
    trace_quiet (dropped_concat _ _) rfl
  have hreceived : received (events ++ [.receives b]) ++ rest = received events ++ b :: rest := by
    rw [received_concat, List.append_assoc]
    rfl
  refine ⟨rest, hincoming, ?_, ?_, fun hne => absurd hphase hne, fun _ => ?_⟩
  · rw [harrived, hdropped, List.append_assoc, hreceived, ← List.append_assoc]
    exact h.all
  · have htold : told (events ++ [.receives b]) = told events := trace_quiet (told_concat _ _) rfl
    rw [htold]
    exact h.stands.telling
  · obtain ⟨before, after, hevents, hdrop, hafter⟩ := h.stands.late hphase
    refine ⟨before, after ++ [.receives b], ?_, ?_, ?_⟩
    · rw [hevents, List.append_assoc, List.cons_append]
    · rw [hdropped, hdrop]
    · rw [hreceived, hafter, arrived_concat]
      exact (List.append_nil _).symm

end

/-- Every step leaves in the queue what has arrived and was neither dropped nor received. -/
theorem Waits.step {queue waiting : Bytes} {events : List Event} {s t : Handover} {event : Event}
    (h : Waits queue events waiting s) (hstep : Step s event t) :
    ∃ waiting', Waits queue (events ++ [event]) waiting' t := by
  have hstands := h.stands
  cases hstep with
  | host hact hheard =>
    exact ⟨waiting, h.incoming, all_quiet h.all rfl rfl rfl, hstands.quiet rfl rfl rfl rfl⟩
  | arrives hflight => exact ⟨_, h.arrives _ _⟩
  | turnsOff hphase =>
    rw [hphase] at hstands
    exact ⟨waiting, h.incoming, all_quiet h.all rfl rfl rfl,
      (hstands.quiet rfl rfl rfl rfl).move rfl (by simp) (by simp)⟩
  | erases hphase =>
    rw [hphase] at hstands
    exact ⟨waiting, h.incoming, all_quiet h.all rfl rfl rfl,
      (hstands.quiet rfl rfl rfl rfl).move rfl (by simp) (by simp)⟩
  | tells hphase => exact ⟨_, h.tells hphase⟩
  | turnsOn hphase =>
    rw [hphase] at hstands
    exact ⟨waiting, h.incoming, all_quiet h.all rfl rfl rfl,
      (hstands.quiet rfl rfl rfl rfl).move rfl (by simp) (by simp)⟩
  | findsByte hphase hready => exact ⟨_, h.findsByte hphase hready⟩
  | findsNone hphase hready => exact ⟨_, h.findsNone hphase hready⟩
  | drops hphase hread => exact h.drops hphase hread
  | receives hphase hreceive => exact h.receives hphase hreceive

/-! ## The host's side -/

/-- The host has asked and not been answered. -/
inductive Unanswered : Host.Stage → Prop where
  | knocking (left : Bytes) (attempts : Nat) (rest : List Request) :
    Unanswered (.knocking left attempts rest)
  | expecting (received : Bytes) (attempts : Nat) (rest : List Request) :
    Unanswered (.expecting received attempts rest)

/-- How a host that has been told `answer` stands when it has written `written` of its requests. It
has written nothing unless the answer is complete. -/
inductive Asks (answer : Bytes) : Host.Stage → Bytes → Prop where
  | unanswered {s : Host.Stage} (h : Unanswered s) : Asks answer s []
  | gaveUp {result : Except Failure Unit} : Asks answer (.done result) []
  | sending {left written : Bytes} {rest : List Request} (h : answer = handshakeResponse) :
    Asks answer (.sending left rest) written
  | awaiting {written : Bytes} {rest : List Request} (h : answer = handshakeResponse) :
    Asks answer (.awaiting rest) written
  | done {result : Except Failure Unit} {written : Bytes} (h : answer = handshakeResponse) :
    Asks answer (.done result) written

/-- The end of the answer is nowhere else in it. -/
theorem eq_nil_of_frameEnd {xs ys : Bytes} (h : xs ++ 0x0A :: ys = handshakeResponse) : ys = [] := by
  rcases List.eq_nil_or_concat ys with rfl | ⟨ys, y, rfl⟩
  · rfl
  have hends : (xs ++ 0x0A :: ys) ++ [y] = [0x40, 0x4F, 0x4B] ++ [0x0A] := by
    rw [List.append_assoc, List.cons_append, ← List.concat_eq_append]
    exact h
  obtain ⟨hfront, -⟩ := List.append_inj' hends rfl
  have hmem : (0x0A : UInt8) ∈ [0x40, 0x4F, 0x4B] := by
    rw [← hfront]
    exact List.mem_append_right _ List.mem_cons_self
  exact absurd hmem (by decide)

theorem eq_of_endsWith {b : UInt8} {received : Bytes}
    (h : endsWith handshakeResponse (b :: received) = true) : b = 0x0A := by
  have hprefix : handshakeResponse.reverse <+: b :: received := List.isPrefixOf_iff_prefix.1 h
  exact (List.cons_prefix_cons.1 hprefix).1.symm

section
variable {answer written : Bytes} {s t : Host.Stage}

theorem Asks.complete (h : Asks answer s written) (hwritten : written ≠ []) :
    answer = handshakeResponse := by
  cases h with
  | unanswered => exact absurd rfl hwritten
  | gaveUp => exact absurd rfl hwritten
  | sending h => exact h
  | awaiting h => exact h
  | done h => exact h

theorem Asks.knocks_or_requests {act : Host.Act} (h : Asks answer s written)
    (hstep : s.Step act t) : written = [] ∨ knocked [.host act] = [] := by
  cases h with
  | unanswered => exact Or.inl rfl
  | gaveUp => exact Or.inl rfl
  | sending => cases hstep <;> exact Or.inr rfl
  | awaiting => cases hstep <;> exact Or.inr rfl
  | done => cases hstep

theorem Asks.imp {answer' : Bytes} (h : Asks answer s written)
    (hanswer : answer = handshakeResponse → answer' = handshakeResponse) : Asks answer' s written := by
  cases h with
  | unanswered h => exact .unanswered h
  | gaveUp => exact .gaveUp
  | sending h => exact .sending (hanswer h)
  | awaiting h => exact .awaiting (hanswer h)
  | done h => exact .done (hanswer h)

theorem Asks.before (h : answer = handshakeResponse) (rest : List Request) (written : Bytes) :
    Asks answer (.before rest) written := by
  unfold Stage.before
  split
  · exact .done h
  · split
    · exact .done h
    · exact .sending h

/-- A host that hears the last byte of the answer has been told all of it. -/
theorem Asks.step {act : Host.Act} {heard rest untold : Bytes} (h : Asks answer s written)
    (hstep : s.Step act t) (hheard : heard ++ (act.heard ++ rest) = answer)
    (hanswer : answer ++ untold = handshakeResponse) :
    Asks answer t (written ++ requested [.host act]) := by
  cases h with
  | unanswered h =>
    cases h with
    | knocking =>
      cases hstep with
      | knocks => exact .unanswered (.knocking _ _ _)
      | knocked => exact .unanswered (.expecting _ _ _)
    | expecting =>
      cases hstep with
      | hearsAnswer hends =>
        obtain rfl := eq_of_endsWith hends
        rw [← hheard, List.append_assoc] at hanswer
        obtain ⟨rfl, rfl⟩ := List.append_eq_nil_iff.1 (eq_nil_of_frameEnd hanswer)
        rw [← hheard]
        exact .before hanswer _ _
      | hearsMore => exact .unanswered (.expecting _ _ _)
      | knocksAgain =>
        unfold Stage.knock
        split
        · exact .gaveUp
        · exact .unanswered (.knocking _ _ _)
  | gaveUp => cases hstep
  | sending h =>
    cases hstep with
    | sends => exact .sending h
    | sent => exact .awaiting h
    | finishes => exact .done h
  | awaiting h =>
    cases hstep with
    | hearsNoise => exact .awaiting h
    | hearsAck => exact .before h _ _
    | hearsRefusal => exact .done h
    | givesUp => exact .done h
  | done h => cases hstep

end

/-! ## Whole handovers -/

/-- The bytes for the device are in order, and the host has read a front of what it was told. -/
structure Crosses (flight : Bytes) (events : List Event) (s : Handover) : Prop where
  order : flight ++ knocked events ++ requested events = arrived events ++ s.toDevice
  hears : ∃ heard, heard ++ s.toHost = told events
  asks : Asks (told events) s.host (requested events)

section
variable {flight : Bytes} {events : List Event} {s : Handover} (h : Crosses flight events s)
include h

theorem Crosses.host {act : Host.Act} {host' : Host.Stage} {rest untold : Bytes}
    (hstep : s.host.Step act host') (hheard : s.toHost = act.heard ++ rest)
    (htelling : told events ++ untold = handshakeResponse) :
    Crosses flight (events ++ [.host act])
      { s with host := host', toDevice := s.toDevice ++ act.written, toHost := rest } := by
  have htold : told (events ++ [.host act]) = told events :=
    trace_quiet (told_concat _ _) rfl
  have harrived : arrived (events ++ [.host act]) = arrived events :=
    trace_quiet (arrived_concat _ _) rfl
  have hwritten : act.written = knocked [.host act] ++ requested [.host act] := by
    cases act <;> rfl
  obtain ⟨heard, hhears⟩ := h.hears
  rw [hheard] at hhears
  refine ⟨?_, ⟨heard ++ act.heard, ?_⟩, ?_⟩
  · rw [harrived, ← List.append_assoc, ← h.order, knocked_concat, requested_concat, hwritten]
    rcases h.asks.knocks_or_requests hstep with hnone | hnone
    · rw [hnone]
      simp only [List.append_assoc, List.nil_append]
    · rw [hnone]
      simp only [List.append_assoc, List.nil_append]
  · rw [htold, ← hhears, List.append_assoc]
  · rw [htold, requested_concat]
    exact h.asks.step hstep hhears htelling

theorem Crosses.arrives {b : UInt8} {rest : Bytes} {line : SerialLine}
    (hflight : s.toDevice = b :: rest) :
    Crosses flight (events ++ [.arrives b]) { s with toDevice := rest, line } := by
  have htold : told (events ++ [.arrives b]) = told events :=
    trace_quiet (told_concat _ _) rfl
  have hknocked : knocked (events ++ [.arrives b]) = knocked events :=
    trace_quiet (knocked_concat _ _) rfl
  have hrequested : requested (events ++ [.arrives b]) = requested events :=
    trace_quiet (requested_concat _ _) rfl
  refine ⟨?_, ?_, ?_⟩
  · rw [hknocked, hrequested, h.order, hflight, arrived_concat, List.append_cons]
    rfl
  · rw [htold]
    exact h.hears
  · rw [htold, hrequested]
    exact h.asks

theorem Crosses.quiet {event : Event} {line : SerialLine} {phase : Phase}
    (hknocked : knocked [event] = []) (hrequested : requested [event] = [])
    (harrived : arrived [event] = []) (htold : told [event] = []) :
    Crosses flight (events ++ [event]) { s with line, phase } := by
  refine ⟨?_, ?_, ?_⟩
  · rw [knocked_concat, requested_concat, arrived_concat, hknocked, hrequested, harrived]
    simp only [List.append_nil]
    exact h.order
  · rw [told_concat, htold, List.append_nil]
    exact h.hears
  · rw [told_concat, requested_concat, htold, hrequested, List.append_nil, List.append_nil]
    exact h.asks

theorem Crosses.tells {b : UInt8} {left : Bytes}
    (htelling : told events ++ b :: left = handshakeResponse) :
    Crosses flight (events ++ [.tells b])
      { s with toHost := s.toHost ++ [b], phase := .answering left } := by
  have hknocked : knocked (events ++ [.tells b]) = knocked events :=
    trace_quiet (knocked_concat _ _) rfl
  have hrequested : requested (events ++ [.tells b]) = requested events :=
    trace_quiet (requested_concat _ _) rfl
  have harrived : arrived (events ++ [.tells b]) = arrived events :=
    trace_quiet (arrived_concat _ _) rfl
  obtain ⟨heard, hhears⟩ := h.hears
  refine ⟨?_, ⟨heard, ?_⟩, ?_⟩
  · rw [hknocked, hrequested, harrived]
    exact h.order
  · rw [told_concat, ← hhears, List.append_assoc]
    rfl
  · rw [hrequested]
    refine h.asks.imp fun hcomplete => ?_
    rw [hcomplete] at htelling
    exact absurd htelling (by simp)

end

theorem Crosses.step {flight queue waiting : Bytes} {events : List Event} {s t : Handover}
    {event : Event} (h : Crosses flight events s) (hwaits : Waits queue events waiting s)
    (hstep : Step s event t) : Crosses flight (events ++ [event]) t := by
  have htelling := hwaits.stands.telling
  cases hstep with
  | host hact hheard => exact h.host hact hheard htelling
  | arrives hflight => exact h.arrives hflight
  | turnsOff => exact h.quiet rfl rfl rfl rfl
  | erases => exact h.quiet rfl rfl rfl rfl
  | tells hphase =>
    rw [hphase] at htelling
    exact h.tells htelling
  | turnsOn => exact h.quiet rfl rfl rfl rfl
  | findsByte => exact h.quiet rfl rfl rfl rfl
  | findsNone => exact h.quiet rfl rfl rfl rfl
  | drops => exact h.quiet rfl rfl rfl rfl
  | receives => exact h.quiet rfl rfl rfl rfl

/-- A device that has heard a host, with bytes in its receive queue and more on their way. -/
def greeted (host : Host.Stage) (flight : Bytes) (line : SerialLine) : Handover :=
  ⟨host, flight, [], line, .heard⟩

theorem crosses_waits_of_path {host : Host.Stage} (hhost : Unanswered host) {flight queue : Bytes}
    {line : SerialLine} (hqueue : line.uart.incoming = queue.map .byte) {events : List Event}
    {s : Handover} (hpath : Path Step (greeted host flight line) events s) :
    Crosses flight events s ∧ ∃ waiting, Waits queue events waiting s := by
  induction hpath with
  | nil =>
    refine ⟨⟨?_, ⟨[], rfl⟩, .unanswered hhost⟩, queue, hqueue, ?_, rfl, fun _ => rfl, fun h => ?_⟩
    · change flight ++ [] ++ [] = [] ++ flight
      simp only [List.append_nil, List.nil_append]
    · exact List.append_nil queue
    · cases h
  | snoc hpath hstep ih =>
    obtain ⟨hcrosses, waiting, hwaits⟩ := ih
    exact ⟨hcrosses.step hwaits hstep, hwaits.step hstep⟩

/-- What waits in the queue of a receiver that is on is what `receive` gives next. -/
theorem path_receives_waiting {s : Handover} (hphase : s.phase = .receiving) {waiting : Bytes}
    (hqueue : s.line.uart.incoming = waiting.map .byte) :
    ∃ line, Path Step s (waiting.map .receives) { s with line } := by
  induction waiting generalizing s with
  | nil => exact ⟨s.line, .nil⟩
  | cons b waiting ih =>
    obtain ⟨next, hreceive, hnext⟩ := SerialLine.receive_of_byte hqueue
    have hlast : ∃ line, Path Step { s with line := next } (waiting.map .receives) { s with line } :=
      ih hphase hnext
    obtain ⟨line, hrest⟩ := hlast
    exact ⟨line, .cons (.receives hphase hreceive) hrest⟩

/-- The host writes no byte of a request before it was told the whole answer. What the device has
dropped, what its session has received, what waits in the receive queue and what has not reached it
are, in order, all that was there and all that the host wrote. Once the receiver is on, the dropped
bytes are those that had reached the queue when the device first found it empty, and every byte that
came later has been received or is received next. So every request byte reaches the session exactly if
none had reached the queue by then.

If nothing arrives while the device looks for bytes to drop, its steps do what `setReceive` does, and on
a serial line the session of `update` gets what arrives behind the first quiet moment after the
answer. -/
theorem request_bytes_survive_iff {host : Host.Stage} (hhost : Unanswered host)
    {flight queue : Bytes} {line : SerialLine} (hqueue : line.uart.incoming = queue.map .byte)
    {events : List Event} {s : Handover} (hpath : Path Step (greeted host flight line) events s) :
    (∃ waiting : Bytes, s.line.uart.incoming = waiting.map .byte ∧
      (requested events ≠ [] → told events = handshakeResponse) ∧
      dropped events ++ received events ++ waiting ++ s.toDevice =
        queue ++ flight ++ knocked events ++ requested events ∧
      (s.phase = .receiving → ∃ before after, events = before ++ .checks false :: after ∧
        dropped events = queue ++ arrived before ∧ received events ++ waiting = arrived after ∧
        (∃ line', Path Step s (waiting.map .receives) { s with line := line' }) ∧
        (requested events <:+ received events ++ waiting ++ s.toDevice ↔
          arrived before <+: flight ++ knocked events)) ∧
      (s.phase = .checking →
        Path Step s (waiting.flatMap (fun b => [.checks true, .drops b]) ++ [.checks false])
          { s with line := s.line.setReceive true, phase := .receiving })) ∧
      ∀ (m m' : Nor flashSize) (start answered : SerialLine),
        (eraseBelow loaderBase).run m = (.ok (), m') →
        (SerialLine.sendAll handshakeResponse).run (start.setReceive false) = (.ok (), answered) →
        ∃ heard : SerialLine, heard.uart.incoming = Uart.quietRest start.uart.incoming ∧
          (update ⟨m, start⟩ : Run flashSize SerialLine SerialLine.Failure) =
            receiveUpdate ⟨m', heard⟩ := by
  refine ⟨?_, fun m m' start answered => update_eq_receiveUpdate⟩
  obtain ⟨hcrosses, waiting, hwaits⟩ := crosses_waits_of_path hhost hqueue hpath
  have horder := hcrosses.order
  refine ⟨waiting, hwaits.incoming, hcrosses.asks.complete, ?_, fun hphase => ?_, fun hphase => ?_⟩
  · calc dropped events ++ received events ++ waiting ++ s.toDevice
        = queue ++ (arrived events ++ s.toDevice) := by rw [← hwaits.all, List.append_assoc]
      _ = queue ++ flight ++ knocked events ++ requested events := by
        rw [← horder]
        simp only [List.append_assoc]
  · obtain ⟨before, after, hevents, hdropped, hreceived⟩ := hwaits.stands.late hphase
    refine ⟨before, after, hevents, hdropped, hreceived,
      path_receives_waiting hphase hwaits.incoming, ?_⟩
    have harrived : arrived events = arrived before ++ arrived after := by
      rw [hevents]
      exact List.filterMap_append
    rw [harrived, ← hreceived, List.append_assoc (arrived before)] at horder
    constructor
    · rintro ⟨skipped, hskipped⟩
      rw [← hskipped, ← List.append_assoc] at horder
      exact ⟨skipped, (List.append_cancel_right horder).symm⟩
    · rintro ⟨late, hlate⟩
      rw [← hlate, List.append_assoc] at horder
      exact ⟨late, List.append_cancel_left horder⟩
  · have hoff : s.line.receiving = false :=
      off_of_path hpath rfl (by simp [hphase]) (by simp [hphase])
    exact path_setReceive hphase hoff hwaits.incoming

/-! ## A request that comes early -/

/-- The device erases and tells the host, which reads the whole answer and writes the first byte of its
first request. -/
def asksAtOnce : List Event :=
  [.turnsOff, .erases] ++ handshakeResponse.map .tells ++ [.turnsOn] ++
    handshakeResponse.map (fun b => .host (.hears b)) ++ [.host (.sends frameStart)]

/-- The byte arrives while the device looks for bytes to drop. -/
def arrivesEarly : List Event :=
  [.arrives frameStart, .checks true, .drops frameStart, .checks false]

/-- The byte arrives when the receiver is on. -/
def arrivesInTime : List Event :=
  [.checks false, .arrives frameStart, .receives frameStart]

theorem before_updateRequests (image : Image) (signature : Vector UInt8 signatureLen) :
    ∃ left rest, Stage.before (updateRequests image signature) = .sending (frameStart :: left) rest := by
  obtain ⟨r, rest, hrequests⟩ : ∃ r rest, updateRequests image signature = r :: rest :=
    List.exists_cons_of_ne_nil (List.append_ne_nil_of_right_ne_nil _ (List.cons_ne_nil _ _))
  have hr : r ∈ updateRequests image signature := by
    rw [hrequests]
    exact List.mem_cons_self
  rw [hrequests]
  exact ⟨_, rest, Stage.before_cons (mem_updateRequests hr).1 rest⟩

section
variable {left : Bytes} {requests rest : List Request} {line : SerialLine}

theorem path_tells {bs toHost : Bytes} {host : Host.Stage} :
    Path Step ⟨host, [], toHost, line, .answering bs⟩ (bs.map .tells)
      ⟨host, [], toHost ++ bs, line, .answering []⟩ := by
  induction bs generalizing toHost with
  | nil =>
    rw [List.append_nil]
    exact .nil
  | cons b bs ih =>
    rw [List.append_cons toHost]
    exact .cons (.tells rfl) ih

theorem path_asksAtOnce (hbefore : Stage.before requests = .sending (frameStart :: left) rest) :
    Path Step (greeted (.expecting [] 0 requests) [] line) asksAtOnce
      ⟨.sending left rest, [frameStart], [], line.setReceive false, .checking⟩ := by
  have herased : Path Step (greeted (.expecting [] 0 requests) [] line) [.turnsOff, .erases]
      ⟨.expecting [] 0 requests, [], [], line.setReceive false, .answering handshakeResponse⟩ :=
    .cons (.turnsOff rfl) (.single (.erases rfl))
  have hturns : Path Step ⟨.expecting [] 0 requests, [], handshakeResponse, line.setReceive false,
        .answering []⟩ [.turnsOn]
      ⟨.expecting [] 0 requests, [], handshakeResponse, line.setReceive false, .checking⟩ :=
    .single (.turnsOn rfl)
  have hhears : Path Step
      ⟨.expecting [] 0 requests, [], handshakeResponse, line.setReceive false, .checking⟩
      (handshakeResponse.map fun b => .host (.hears b))
      ⟨.before requests, [], [], line.setReceive false, .checking⟩ :=
    .cons (.host (.hearsMore rfl) rfl) <| .cons (.host (.hearsMore rfl) rfl) <|
      .cons (.host (.hearsMore rfl) rfl) <| .single (.host (.hearsAnswer rfl) rfl)
  rw [hbefore] at hhears
  exact (((herased.append path_tells).append hturns).append hhears).append
    (.single (.host .sends rfl))

end

/-- A serial line with nothing on it. -/
def idleLine : SerialLine :=
  .ofUart (.ofEvents [] none none none)

theorem path_arrivesEarly (host : Host.Stage) :
    ∃ line, Path Step ⟨host, [frameStart], [], idleLine.setReceive false, .checking⟩ arrivesEarly
      ⟨host, [], [], line, .receiving⟩ :=
  ⟨_, .cons (.arrives rfl) <| .cons (.findsByte rfl rfl) <| .cons (.drops rfl rfl) <|
    .single (.findsNone rfl rfl)⟩

theorem path_arrivesInTime (host : Host.Stage) :
    ∃ line, Path Step ⟨host, [frameStart], [], idleLine.setReceive false, .checking⟩ arrivesInTime
      ⟨host, [], [], line, .receiving⟩ :=
  ⟨_, .cons (.findsNone rfl rfl) <| .cons (.arrives rfl) <| .single (.receives rfl rfl)⟩

/-- A host that has read the whole answer can write the first byte of its first request early enough
for the device to drop it. -/
theorem early_request_byte_is_dropped :
    ∃ s : Handover,
      Path Step (greeted (.expecting [] 0
        (updateRequests (Image.ofByte 0x12) (Vector.replicate signatureLen 7))) [] idleLine)
        (asksAtOnce ++ arrivesEarly) s ∧
      s.phase = .receiving ∧ s.toDevice = [] ∧
      told asksAtOnce = handshakeResponse ∧
      requested (asksAtOnce ++ arrivesEarly) = [frameStart] ∧
      dropped (asksAtOnce ++ arrivesEarly) = [frameStart] ∧
      received (asksAtOnce ++ arrivesEarly) = [] := by
  obtain ⟨left, rest, hbefore⟩ :=
    before_updateRequests (Image.ofByte 0x12) (Vector.replicate signatureLen 7)
  obtain ⟨line, hearly⟩ := path_arrivesEarly (.sending left rest)
  exact ⟨_, (path_asksAtOnce hbefore).append hearly, rfl, rfl, rfl, rfl, rfl, rfl⟩

/-- A byte that arrives when the receiver is on is received. -/
theorem request_byte_in_time_survives :
    ∃ (s : Handover) (waiting : Bytes),
      Path Step (greeted (.expecting [] 0
        (updateRequests (Image.ofByte 0x12) (Vector.replicate signatureLen 7))) [] idleLine)
        (asksAtOnce ++ arrivesInTime) s ∧
      s.line.uart.incoming = waiting.map .byte ∧
      requested (asksAtOnce ++ arrivesInTime) = [frameStart] ∧
      [frameStart] <:+ received (asksAtOnce ++ arrivesInTime) ++ waiting ++ s.toDevice := by
  obtain ⟨left, rest, hbefore⟩ :=
    before_updateRequests (Image.ofByte 0x12) (Vector.replicate signatureLen 7)
  obtain ⟨line, hintime⟩ := path_arrivesInTime (.sending left rest)
  have hpath := (path_asksAtOnce hbefore).append hintime
  obtain ⟨⟨waiting, hwaiting, -, -, hreceiving, -⟩, -⟩ :=
    request_bytes_survive_iff (.expecting [] 0 _)
      (show idleLine.uart.incoming = ([] : Bytes).map .byte from rfl) hpath
  obtain ⟨before, after, hevents, -, hafter, -, hsurvives⟩ := hreceiving rfl
  have hall : [frameStart] = arrived before ++ ([frameStart] ++ waiting) := by
    have hsplit : arrived (before ++ .checks false :: after) = arrived before ++ arrived after :=
      List.filterMap_append
    rw [← hevents, ← hafter] at hsplit
    exact hsplit
  have hnone : arrived before = [] := by
    have hlen := congrArg List.length hall
    simp only [List.length_append, List.length_singleton] at hlen
    exact List.length_eq_zero_iff.1 (by omega)
  exact ⟨_, waiting, hpath, hwaiting, rfl, hsurvives.2 (hnone ▸ List.nil_prefix)⟩

end Handover

end SignedBoot
