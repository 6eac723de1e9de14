import SignedBoot.Device.Channel
import SignedBoot.Quota

/-!
# A scripted channel

A channel whose incoming side is a list of events fixed in advance, and which keeps a record of
what the device did with it. A `receive` waits idle stretches out, a `poll` spends one event per
call. Turning the receiver off makes `receive` fail and is otherwise only recorded.
-/

namespace SignedBoot.Device

namespace Script

/-- One thing that happens on the incoming side. -/
inductive Event where
  | byte (b : UInt8)
  /-- Nothing arrives for the length of a poll. -/
  | idle
  | error
  deriving DecidableEq, Repr

/-- Why a scripted channel failed. -/
inductive Failure where
  /-- The script says so. -/
  | lineError
  /-- Nothing will ever arrive. -/
  | exhausted
  /-- The receiver is off. -/
  | receiverOff
  /-- No further byte can be sent. -/
  | sendRefused
  deriving DecidableEq, Repr

end Script

/-- A channel with a scripted incoming side. -/
structure Script where
  /-- What is still to happen. -/
  incoming : List Script.Event
  /-- How many more bytes can be sent, if there is a bound. -/
  sendsLeft : Quota
  /-- Whether the receiver is on. -/
  receiving : Bool
  sent : Array UInt8
  polls : Nat
  /-- How long the last poll would have waited, in nanoseconds. -/
  lastTimeout : Option Nat
  /-- Every switching of the receiver, in order. -/
  switches : Array Bool

namespace Script

/-- A channel that nothing has been done with. -/
def ofEvents (incoming : List Event) (sendsLeft : Quota) (receiving : Bool) : Script :=
  ⟨incoming, sendsLeft, receiving, #[], 0, none, #[]⟩

/-- The next byte behind any idle stretches, and the events after it. -/
def nextByte : List Event → Except Failure UInt8 × List Event
  | [] => (.error .exhausted, [])
  | .idle :: rest => nextByte rest
  | .error :: rest => (.error .lineError, rest)
  | .byte b :: rest => (.ok b, rest)

theorem length_nextByte_lt {events : List Event} {b : UInt8}
    (h : (nextByte events).1 = .ok b) : (nextByte events).2.length < events.length := by
  fun_induction nextByte events with
  | case1 => cases h
  | case2 rest ih => exact Nat.lt_succ_of_lt (ih h)
  | case3 rest => cases h
  | case4 b rest => exact Nat.lt_succ_self _

/-- Sends one byte while sending is still possible. -/
def send (b : UInt8) : Attempt Script Failure Unit :=
  ⟨fun s =>
    match s.sendsLeft.spend? with
    | none => (.error .sendRefused, s)
    | some sendsLeft => (.ok (), { s with sent := s.sent.push b, sendsLeft })⟩

/-- Waits for the next byte. -/
def receive : Attempt Script Failure UInt8 :=
  ⟨fun s =>
    if s.receiving then
      let next := nextByte s.incoming
      (next.1, { s with incoming := next.2 })
    else (.error .receiverOff, s)⟩

/-- What a poll finds, and the events after it. -/
def nextPoll : List Event → Except Failure (Option UInt8) × List Event
  | [] => (.ok none, [])
  | .byte b :: rest => (.ok (some b), rest)
  | .idle :: rest => (.ok none, rest)
  | .error :: rest => (.error .lineError, rest)

/-- Looks at one event. -/
def poll (timeout : Nat) : Attempt Script Failure (Option UInt8) :=
  ⟨fun s =>
    let next := nextPoll s.incoming
    (next.1,
      { s with incoming := next.2, polls := s.polls + 1, lastTimeout := some timeout })⟩

/-- Turns the receiver on or off. -/
def setReceive (on : Bool) (s : Script) : Script :=
  { s with receiving := on, switches := s.switches.push on }

theorem send_incoming {b : UInt8} {s s' : Script} (h : (send b).run s = (.ok (), s')) :
    s'.incoming = s.incoming := by
  simp only [send] at h
  split at h
  · cases h
  · cases h; rfl

theorem receive_incoming_lt {b : UInt8} {s s' : Script} (h : receive.run s = (.ok b, s')) :
    s'.incoming.length < s.incoming.length := by
  simp only [receive] at h
  split at h
  · obtain ⟨hb, rfl⟩ := Prod.mk.inj h
    exact length_nextByte_lt hb
  · cases h

instance : Channel Script Failure where
  send := send
  receive := receive
  poll := poll
  setReceive := setReceive
  pending s := s.incoming.length
  send_pending h := Nat.le_of_eq (congrArg List.length (send_incoming h))
  receive_pending h := receive_incoming_lt h

end Script

end SignedBoot.Device
